/-
  Texts as lists of lines.

  A line ends in the separator and has no other. Every text is, in exactly one way, a list of
  lines followed by a rest without separators; `cut` computes it. Proofs about texts use the
  form `ls.flatten ++ w` and get it from `cut_eq`; `cut_flatten` says that it is the only one.
-/
import Mathlib

namespace KernelBasecamp.Lib

universe u

variable {α : Type u} (sep : α)

/-- A line: the separator, and only it, at the end. -/
def IsLine (l : List α) : Prop := ∃ body, sep ∉ body ∧ l = body ++ [sep]

theorem isLine_singleton : IsLine sep [sep] := ⟨[], List.not_mem_nil, rfl⟩

theorem IsLine.cons {l : List α} (h : IsLine sep l) {a : α} (ha : a ≠ sep) :
    IsLine sep (a :: l) := by
  obtain ⟨body, hbody, rfl⟩ := h
  exact ⟨a :: body, List.not_mem_cons_of_ne_of_not_mem ha.symm hbody, rfl⟩

/-- A line that starts with a separator-free list goes on behind it. -/
theorem IsLine.prefix_iff {l p rest : List α} (h : IsLine sep l) (hp : sep ∉ p) :
    p <+: l ++ rest ↔ p <+: l := by
  constructor
  · intro hpre
    by_cases hlen : p.length ≤ l.length
    · exact List.prefix_of_prefix_length_le hpre (List.prefix_append l rest) hlen
    · -- otherwise the separator at the end of `l` lies inside `p`
      have hlp : l <+: p :=
        List.prefix_of_prefix_length_le (List.prefix_append l rest) hpre (by omega)
      obtain ⟨body, -, rfl⟩ := h
      exact absurd (hlp.subset (List.mem_append_right body List.mem_cons_self)) hp
  · exact fun hpre => hpre.trans (List.prefix_append l rest)

/-- Lists without a separator that agree up to the first one are equal. -/
theorem prefix_sep_iff {u v r : List α} (hu : sep ∉ u) (hv : sep ∉ v) :
    u ++ [sep] <+: v ++ sep :: r ↔ u = v := by
  constructor
  · rintro ⟨x, hx⟩
    rw [List.append_assoc, List.singleton_append] at hx
    rcases List.append_eq_append_iff.mp hx with ⟨y, rfl, hy⟩ | ⟨y, rfl, hy⟩
    · cases y with
      | nil => rw [List.append_nil]
      | cons b y =>
          obtain ⟨rfl, -⟩ := List.cons.inj hy
          exact absurd (List.mem_append_right u List.mem_cons_self) hv
    · cases y with
      | nil => rw [List.append_nil]
      | cons b y =>
          obtain ⟨rfl, -⟩ := List.cons.inj hy
          exact absurd (List.mem_append_right v List.mem_cons_self) hu
  · rintro rfl
    exact ⟨r, by rw [List.append_assoc]; rfl⟩

theorem isLine_iff {l : List α} : IsLine sep l ↔ l.getLast? = some sep ∧ sep ∉ l.dropLast := by
  constructor
  · rintro ⟨body, hbody, rfl⟩
    exact ⟨by simp, by simpa using hbody⟩
  · rintro ⟨hlast, hbody⟩
    obtain ⟨body, rfl⟩ := List.getLast?_eq_some_iff.mp hlast
    rw [List.dropLast_concat] at hbody
    exact ⟨body, hbody, rfl⟩

variable [DecidableEq α]

instance (l : List α) : Decidable (IsLine sep l) :=
  decidable_of_iff (l.getLast? = some sep ∧ sep ∉ l.dropLast) (isLine_iff sep).symm

/-- The lines of a text and what follows the last of them. -/
def cut : List α → List (List α) × List α
  | [] => ([], [])
  | a :: t =>
      if a = sep then ([a] :: (cut t).1, (cut t).2)
      else
        match cut t with
        | ([], w) => ([], a :: w)
        | (l :: ls, w) => ((a :: l) :: ls, w)

/-- `cut` decomposes the text. -/
theorem cut_eq (t : List α) : (cut sep t).1.flatten ++ (cut sep t).2 = t := by
  induction t with
  | nil => rfl
  | cons a t ih =>
      rw [cut]
      split
      · rw [List.flatten_cons, List.append_assoc, ih]
        rfl
      · split
        · next w hcut =>
            rw [hcut] at ih
            exact congrArg (a :: ·) ih
        · next l ls w hcut =>
            rw [hcut] at ih
            exact congrArg (a :: ·) ih

theorem cut_spec (t : List α) :
    (∀ l ∈ (cut sep t).1, IsLine sep l) ∧ sep ∉ (cut sep t).2 := by
  induction t with
  | nil => exact ⟨(fun _ h => nomatch h), List.not_mem_nil⟩
  | cons a t ih =>
      obtain ⟨hls, hw⟩ := ih
      rw [cut]
      split
      · next ha =>
          refine ⟨fun l hl => ?_, hw⟩
          rcases List.mem_cons.mp hl with rfl | hl
          · rw [ha]
            exact isLine_singleton sep
          · exact hls l hl
      · next ha =>
          split
          · next w hcut =>
              rw [hcut] at hw
              exact ⟨by simp, List.not_mem_cons_of_ne_of_not_mem (Ne.symm ha) hw⟩
          · next l ls w hcut =>
              rw [hcut] at hls hw
              refine ⟨fun l' hl' => ?_, hw⟩
              rcases List.mem_cons.mp hl' with rfl | hl'
              · exact (hls l List.mem_cons_self).cons sep ha
              · exact hls l' (List.mem_cons_of_mem l hl')

/-- A text that ends in the separator has no rest. -/
theorem cut_of_getLast {t : List α} (ht : t.getLast? = some sep) : (cut sep t).2 = [] := by
  by_contra hne
  have hlast := ht
  rw [← cut_eq sep t, List.getLast?_append_of_ne_nil _ hne] at hlast
  exact (cut_spec sep t).2 (List.mem_of_getLast? hlast)

/-- It has no rest only then, or when it is empty. -/
theorem cut_rest_eq_nil_iff (t : List α) : (cut sep t).2 = [] ↔ t = [] ∨ t.getLast? = some sep := by
  constructor
  · intro hw
    have ht := cut_eq sep t
    have hls := (cut_spec sep t).1
    rw [hw, List.append_nil] at ht
    cases hcut : (cut sep t).1 using List.reverseRecOn with
    | nil =>
        rw [hcut] at ht
        exact .inl ht.symm
    | append_singleton ls l =>
        rw [hcut] at ht hls
        obtain ⟨body, -, rfl⟩ := hls l List.mem_concat_self
        rw [← ht]
        exact .inr (by simp)
  · rintro (rfl | ht)
    · rfl
    · exact cut_of_getLast sep ht

theorem cut_of_not_mem {w : List α} (hw : sep ∉ w) : cut sep w = ([], w) := by
  induction w with
  | nil => rfl
  | cons a w ih =>
      obtain ⟨ha, hw'⟩ := List.ne_and_not_mem_of_not_mem_cons hw
      rw [cut, if_neg (Ne.symm ha), ih hw']

theorem cut_line_append {l : List α} (hl : IsLine sep l) (t : List α) :
    cut sep (l ++ t) = (l :: (cut sep t).1, (cut sep t).2) := by
  obtain ⟨body, hbody, rfl⟩ := hl
  induction body with
  | nil =>
      rw [List.nil_append, List.singleton_append, cut, if_pos rfl]
  | cons a body ih =>
      obtain ⟨ha, hbody'⟩ := List.ne_and_not_mem_of_not_mem_cons hbody
      rw [List.cons_append, List.cons_append, cut, if_neg (Ne.symm ha), ih hbody']

/-- Lines followed by a text are cut into these lines and the lines of the text. -/
theorem cut_append {ls : List (List α)} (hls : ∀ l ∈ ls, IsLine sep l) (t : List α) :
    cut sep (ls.flatten ++ t) = (ls ++ (cut sep t).1, (cut sep t).2) := by
  induction ls with
  | nil => rfl
  | cons l ls ih =>
      rw [List.flatten_cons, List.append_assoc, cut_line_append sep (hls l List.mem_cons_self),
        ih fun l' hl' => hls l' (List.mem_cons_of_mem l hl')]
      rfl

/-- The decomposition is unique. -/
theorem cut_flatten {ls : List (List α)} {w : List α} (hls : ∀ l ∈ ls, IsLine sep l)
    (hw : sep ∉ w) : cut sep (ls.flatten ++ w) = (ls, w) := by
  rw [cut_append sep hls, cut_of_not_mem sep hw, List.append_nil]

end KernelBasecamp.Lib
