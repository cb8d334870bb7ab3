/-
  Renamings carried out one after the other, and at once.

  A directory maps names to what they stand for. `move d a b` gives what `a` stands for the
  name `b`, which loses what it stood for before; `moves g d l` moves each name of `l` in turn to
  its new name. `renamed g d l` is the directory with all of `l` renamed at once.

  `Clears` says that every new name that is taken belongs to a file that has been moved away
  before. It is exactly what the sequence needs (`moves_keep_iff`): otherwise the file that has
  the name is overwritten and no name stands for it afterwards.
-/
import Mathlib

namespace KernelBasecamp.Lib

universe u v

variable {α : Type u} {β : Type v} [DecidableEq α]

def move (d : α → Option β) (a b : α) : α → Option β :=
  match d a with
  | none => d
  | some x => Function.update (Function.update d a none) b (some x)

def moves (g : α → α) (d : α → Option β) (l : List α) : α → Option β :=
  l.foldl (fun d a => move d a (g a)) d

/-- All of `l` renamed at once. -/
def renamed (g : α → α) (d : α → Option β) (l : List α) (n : α) : Option β :=
  match l.find? fun a => g a = n with
  | some a => d a
  | none => if n ∈ l then none else d n

/-- Each new name is free, or its file is among those renamed before. -/
def Clears (g : α → α) (d : α → Option β) (done : List α) : List α → Prop
  | [] => True
  | a :: l => (d (g a) ≠ none → g a ∈ done) ∧ Clears g d (done ++ [a]) l

instance Clears.decidable {g : α → α} {d : α → Option β} [∀ a, Decidable (d a ≠ none)] :
    ∀ done l, Decidable (Clears g d done l)
  | _, [] => isTrue trivial
  | done, a :: l =>
      have := Clears.decidable (g := g) (d := d) (done ++ [a]) l
      inferInstanceAs (Decidable ((d (g a) ≠ none → g a ∈ done) ∧ Clears g d (done ++ [a]) l))

/-- What is to be renamed: names of different files, once each. -/
structure Renamable (d : α → Option β) (l : List α) : Prop where
  nodup : l.Nodup
  mem : ∀ a ∈ l, d a ≠ none
  inj : ∀ a b x, d a = some x → d b = some x → a = b

section

variable {g : α → α} {d : α → Option β}

/-- What stands nowhere stays nowhere. -/
theorem move_lost {x : β} (h : ∀ n, d n ≠ some x) (a b : α) : ∀ n, move d a b n ≠ some x := by
  intro n
  unfold move
  cases hy : d a with
  | none => exact h n
  | some y =>
      dsimp only
      by_cases hb : n = b
      · subst hb
        rw [Function.update_self, ← hy]
        exact h a
      · rw [Function.update_of_ne hb]
        by_cases ha : n = a
        · subst ha
          rw [Function.update_self]
          exact (Option.some_ne_none x).symm
        · rw [Function.update_of_ne ha]
          exact h n

theorem moves_lost {x : β} (h : ∀ n, d n ≠ some x) (l : List α) :
    ∀ n, moves g d l n ≠ some x := by
  induction l generalizing d with
  | nil => exact h
  | cons a l ih => exact ih (move_lost h a (g a))

theorem find?_new_name (hg : Function.Injective g) {a : α} {l : List α} (ha : a ∈ l) :
    l.find? (fun b => g b = g a) = some a := by
  cases hfind : l.find? (fun b => g b = g a) with
  | none =>
      have hno := List.find?_eq_none.mp hfind a ha
      exact absurd (decide_eq_true rfl) hno
  | some b =>
      have hb := List.find?_some hfind
      rw [hg (of_decide_eq_true hb)]

/-- A renamed file is found under its new name. -/
theorem renamed_new_name (hg : Function.Injective g) {a : α} {l : List α} (ha : a ∈ l) :
    renamed g d l (g a) = d a := by
  unfold renamed
  rw [find?_new_name hg ha]

/-- The other names stand for what they stood for, unless they are old names. -/
theorem renamed_other {n : α} {l : List α} (h : ∀ a ∈ l, g a ≠ n) :
    renamed g d l n = if n ∈ l then none else d n := by
  have hfind : l.find? (fun a => g a = n) = none :=
    List.find?_eq_none.mpr fun a ha => by simpa using h a ha
  unfold renamed
  rw [hfind]

theorem renamed_nil : renamed g d [] = d := by
  funext n
  rw [renamed_other fun a ha => absurd ha List.not_mem_nil]
  rfl

/-- One more name, whose file has not been moved and whose new name is free. -/
theorem move_renamed (hg : Function.Injective g) (hne : ∀ a, g a ≠ a) {done : List α} {a : α}
    (ha : d a ≠ none) (hnew : a ∉ done) (hfresh : ∀ b ∈ done, g b ≠ a) :
    move (renamed g d done) a (g a) = renamed g d (done ++ [a]) := by
  obtain ⟨x, hx⟩ := Option.ne_none_iff_exists'.mp ha
  have hat : renamed g d done a = some x := by
    rw [renamed_other hfresh, if_neg hnew, hx]
  unfold move
  rw [hat]
  funext n
  dsimp only
  by_cases hn : n = g a
  · subst hn
    have hlast : a ∈ done ++ [a] := List.mem_append_right _ (List.mem_singleton_self a)
    rw [Function.update_self, renamed_new_name hg hlast, hx]
  · rw [Function.update_of_ne hn]
    by_cases hna : n = a
    · subst hna
      have hother : ∀ b ∈ done ++ [n], g b ≠ n := by
        intro b hb
        rcases List.mem_append.mp hb with hb | hb
        · exact hfresh b hb
        · rw [List.mem_singleton.mp hb]
          exact hne n
      rw [Function.update_self, renamed_other hother,
        if_pos (List.mem_append_right _ (List.mem_singleton_self n))]
    · rw [Function.update_of_ne hna]
      unfold renamed
      rw [List.find?_append]
      have hlast : [a].find? (fun b => g b = n) = none :=
        List.find?_eq_none.mpr fun b hb => by
          rw [List.mem_singleton.mp hb]
          simpa using Ne.symm hn
      rw [hlast, Option.or_none]
      simp [hna]

/-- A new name that is taken by a file still there: the file is overwritten. -/
theorem move_overwrites (hg : Function.Injective g) (hne : ∀ a, g a ≠ a) {done : List α} {a : α}
    {x : β} (hinj : ∀ a b x, d a = some x → d b = some x → a = b) (ha : d a ≠ none)
    (hnew : a ∉ done) (hfresh : ∀ b ∈ done, g b ≠ a) (hx : d (g a) = some x)
    (htaken : g a ∉ done) : ∀ n, move (renamed g d done) a (g a) n ≠ some x := by
  intro n hn
  rw [move_renamed hg hne ha hnew hfresh] at hn
  by_cases hmoved : ∃ b ∈ done ++ [a], g b = n
  · obtain ⟨b, hb, rfl⟩ := hmoved
    rw [renamed_new_name hg hb] at hn
    obtain rfl := hinj b (g a) x hn hx
    rcases List.mem_append.mp hb with hb | hb
    · exact htaken hb
    · exact hne a (List.mem_singleton.mp hb)
  · push Not at hmoved
    rw [renamed_other hmoved] at hn
    split at hn
    · cases hn
    · obtain rfl := hinj n (g a) x hn hx
      exact hmoved a (List.mem_append_right _ (List.mem_singleton_self a)) rfl

/-- One after the other from the names already renamed: the same as at once where every new
    name is clear, and else some file is lost. -/
theorem moves_renamed (hg : Function.Injective g) (hne : ∀ a, g a ≠ a) {done l : List α}
    (h : Renamable d (done ++ l)) (hclosed : ∀ b ∈ done, d (g b) ≠ none → g b ∈ done) :
    (Clears g d done l → moves g (renamed g d done) l = renamed g d (done ++ l)) ∧
    (¬ Clears g d done l →
      ∃ a x, d a = some x ∧ ∀ n, moves g (renamed g d done) l n ≠ some x) := by
  induction l generalizing done with
  | nil =>
      rw [List.append_nil]
      exact ⟨fun _ => rfl, fun hno => absurd trivial hno⟩
  | cons a l ih =>
      have ha : d a ≠ none := h.mem a (List.mem_append_right _ List.mem_cons_self)
      have hnew : a ∉ done := fun hd =>
        (List.nodup_append.mp h.nodup).2.2 a hd a List.mem_cons_self rfl
      have hfresh : ∀ b ∈ done, g b ≠ a := by
        rintro b hb rfl
        exact hnew (hclosed b hb ha)
      have hnext : moves g (renamed g d done) (a :: l) =
          moves g (renamed g d (done ++ [a])) l :=
        congrArg (moves g · l) (move_renamed hg hne ha hnew hfresh)
      by_cases hclear : d (g a) ≠ none → g a ∈ done
      · have happ : Renamable d ((done ++ [a]) ++ l) := by rwa [List.append_assoc]
        have hstep : ∀ b ∈ done ++ [a], d (g b) ≠ none → g b ∈ done ++ [a] := by
          intro b hb htaken
          rcases List.mem_append.mp hb with hb | hb
          · exact List.mem_append_left _ (hclosed b hb htaken)
          · rw [List.mem_singleton.mp hb] at htaken ⊢
            exact List.mem_append_left _ (hclear htaken)
        have hrest := ih happ hstep
        rw [hnext]
        refine ⟨fun hc => ?_, fun hno => hrest.2 fun hc => hno ⟨hclear, hc⟩⟩
        rw [hrest.1 hc.2, List.append_assoc]
        rfl
      · refine ⟨fun hc => absurd hc.1 hclear, fun _ => ?_⟩
        push Not at hclear
        obtain ⟨htaken, hstill⟩ := hclear
        obtain ⟨x, hx⟩ := Option.ne_none_iff_exists'.mp htaken
        exact ⟨g a, x, hx,
          moves_lost (move_overwrites hg hne h.inj ha hnew hfresh hx hstill) l⟩

omit [DecidableEq α] in
theorem Clears.closed {done l : List α} (h : Clears g d done l) :
    ∀ a ∈ l, d (g a) ≠ none → g a ∈ done ++ l := by
  induction l generalizing done with
  | nil => exact fun a ha => absurd ha List.not_mem_nil
  | cons b l ih =>
      intro a ha htaken
      rcases List.mem_cons.mp ha with rfl | ha
      · exact List.mem_append_left _ (h.1 htaken)
      · have hmem := ih h.2 a ha htaken
        rwa [List.append_assoc] at hmem

/-- Every file stands under the name it should have, its new one or its old one, exactly where
    every new name is clear when it is used. Otherwise some file stands under no name. -/
theorem moves_keep_iff (hg : Function.Injective g) (hne : ∀ a, g a ≠ a) {l : List α}
    (h : Renamable d l) :
    ((∀ a x, d a = some x →
      (a ∈ l → moves g d l (g a) = some x) ∧ (a ∉ l → moves g d l a = some x)) ↔
      Clears g d [] l) ∧
    (¬ Clears g d [] l → ∃ a x, d a = some x ∧ ∀ n, moves g d l n ≠ some x) := by
  have happ : Renamable d ([] ++ l) := h
  have hboth := moves_renamed hg hne happ fun b hb => absurd hb List.not_mem_nil
  rw [renamed_nil, List.nil_append] at hboth
  refine ⟨?_, hboth.2⟩
  constructor
  · intro hkept
    by_contra hno
    obtain ⟨a, x, hx, hlost⟩ := hboth.2 hno
    by_cases ha : a ∈ l
    · exact hlost _ ((hkept a x hx).1 ha)
    · exact hlost _ ((hkept a x hx).2 ha)
  · intro hc a x hx
    rw [hboth.1 hc]
    refine ⟨fun ha => by rw [renamed_new_name hg ha, hx], fun ha => ?_⟩
    have hother : ∀ b ∈ l, g b ≠ a := by
      rintro b hb rfl
      exact ha (hc.closed b hb (by rw [hx]; exact Option.some_ne_none x))
    rw [renamed_other hother, if_neg ha, hx]

end

end KernelBasecamp.Lib
