/-
  Where `reverse_string` stays inside its string.

  `reverse_string_in` is the function on a memory that consists of the string alone: `strlen`
  and `strchr` also read the NUL, but a swap at any other place than the positions below
  `strlen(str)` is a fault, and a loop without an end runs into one. What it does there it does
  inside any other memory, and leaves the rest alone (`reverse_string_frame`).

  The first pass is sound from two bytes on. After it the string begins with its last byte but
  one, and every word but the first may be empty: the interval of an empty word ends one byte
  before it starts, and this is the space in front of it. An empty first word has no such byte,
  and an empty word at the very end makes the half length negative (`in_bounds_iff`).
-/
import KernelBasecamp.Procfs.Reverse

namespace KernelBasecamp.Procfs

open Lib Lib.CMem

/-! ## The string alone -/

/-- The word loop on the string alone. -/
def wordLoopIn (x : List UInt8) (se ws : Int) : Option (List UInt8) :=
  match hc : strchrAt (x ++ [0]) ws 32 with
  | none => none
  | some none => reverse_interval x ws (se - 1) false
  | some (some we) =>
      match hr : reverse_interval x ws (we - 1) false with
      | none => none
      | some x' => wordLoopIn x' se (we + 1)
termination_by (x.length + 1 - ws).toNat
decreasing_by
  have hl := reverse_interval_length hr
  have hb := strchrAt_bounds hc
  rw [List.length_append, List.length_singleton] at hb
  omega

/-- `reverse_string` on the string alone. -/
def reverse_string_in (x : List UInt8) : Option (List UInt8) := do
  let n ← strlenAt (x ++ [0]) 0
  let len := size_sub n 1
  let se := ptrAdd 0 n - 1
  let x ← reverse_interval x 0 (ptrAdd 0 len - 1) true
  match ← strchrAt (x ++ [0]) 0 32 with
  | none => some x
  | some _ => wordLoopIn x se 0

/-- The string starts at the first byte of the memory. -/
theorem start_eq : (0 : Int) = ([] : List UInt8).length := rfl

theorem strlenAt_start {x : List UInt8} (hx : 0 ∉ x) : strlenAt (x ++ [0]) 0 = some x.length :=
  strlenAt_spec hx [] start_eq

/-! ## The same in a larger memory -/

theorem swap_chars_frame {m m' : List UInt8} {a b : Int} (h : swap_chars m a b = some m')
    (pre post : List UInt8) :
    swap_chars (pre ++ (m ++ post)) (a + pre.length) (b + pre.length) =
      some (pre ++ (m' ++ post)) := by
  unfold swap_chars at h ⊢
  simp only [Option.bind_eq_bind, Option.bind_eq_some_iff] at h ⊢
  obtain ⟨t, ht, u, hu, m₁, h₁, h₂⟩ := h
  exact ⟨t, load_frame ht pre post, u, load_frame hu pre post, _, store_frame h₁ pre post,
    store_frame h₂ pre post⟩

theorem reverseStep_frame {make_upper : Bool} {m m' : List UInt8} {a b : Int}
    (h : reverseStep make_upper m a b = some m') (pre post : List UInt8) :
    reverseStep make_upper (pre ++ (m ++ post)) (a + pre.length) (b + pre.length) =
      some (pre ++ (m' ++ post)) := by
  unfold reverseStep at h ⊢
  simp only [Option.bind_eq_bind, Option.bind_eq_some_iff] at h ⊢
  obtain ⟨m₁, h₁, h⟩ := h
  refine ⟨_, swap_chars_frame h₁ pre post, ?_⟩
  cases make_upper with
  | false =>
      cases h
      rfl
  | true =>
      simp only [if_true, Option.bind_eq_some_iff] at h ⊢
      obtain ⟨c, hc, m₂, h₂, d, hd, h₃⟩ := h
      exact ⟨c, load_frame hc pre post, _, store_frame h₂ pre post, d, load_frame hd pre post,
        store_frame h₃ pre post⟩

theorem reverseLoop_frame {make_upper : Bool} {l i : Nat} {m m' : List UInt8} {a b : Int}
    (h : reverseLoop make_upper l i m a b = some m') (pre post : List UInt8) :
    reverseLoop make_upper l i (pre ++ (m ++ post)) (a + pre.length) (b + pre.length) =
      some (pre ++ (m' ++ post)) := by
  fun_induction reverseLoop make_upper l i m a b with
  | case1 i m a b hi hstep => cases h
  | case2 i m a b hi m₁ hstep ih =>
      rw [reverseLoop, if_pos hi]
      have hframe := reverseStep_frame hstep pre post
      split
      · next hnone => rw [hframe] at hnone; cases hnone
      · next m₂ hsome =>
          rw [hframe] at hsome
          cases hsome
          rw [← ih h]
          congr 1 <;> omega
  | case3 i m a b hi =>
      cases h
      rw [reverseLoop, if_neg hi]

theorem reverse_interval_frame {make_upper : Bool} {m m' : List UInt8} {a b : Int}
    (h : reverse_interval m a b make_upper = some m') (pre post : List UInt8) :
    reverse_interval (pre ++ (m ++ post)) (a + pre.length) (b + pre.length) make_upper =
      some (pre ++ (m' ++ post)) := by
  unfold reverse_interval at h ⊢
  rw [Int.add_sub_add_right]
  exact reverseLoop_frame h pre post

theorem strchrAt_frame {x : List UInt8} {p : Int} {c : UInt8} {r : Option Int}
    (h : strchrAt (x ++ [0]) p c = some r) (pre post : List UInt8) :
    strchrAt (pre ++ (x ++ 0 :: post)) (p + pre.length) c =
      some (r.map (· + (pre.length : Int))) := by
  unfold strchrAt at h ⊢
  split at h
  · next hp =>
      obtain ⟨q, hq, rfl⟩ := Option.map_eq_some_iff.mp h
      have hle : p.toNat ≤ (x ++ [0]).length := by
        by_contra hlt
        rw [List.drop_of_length_le (by omega)] at hq
        cases hq
      have hdrop : (pre ++ (x ++ 0 :: post)).drop (p + pre.length).toNat =
          (x ++ [0]).drop p.toNat ++ post := by
        rw [show (p + pre.length).toNat = pre.length + p.toNat by omega,
          ← List.drop_append_of_le_length hle, List.append_assoc, List.singleton_append]
        exact List.drop_length_add_append ..
      rw [if_pos (by omega), hdrop, strchr_append_of_some hq]
      cases q with
      | none => rfl
      | some n =>
          simp only [Option.map_some, Option.some.injEq]
          omega
  · cases h

theorem wordLoop_frame {x x' : List UInt8} {se ws : Int} (h : wordLoopIn x se ws = some x')
    (pre post : List UInt8) :
    wordLoop (pre ++ (x ++ 0 :: post)) (se + pre.length) (ws + pre.length) =
      some (pre ++ (x' ++ 0 :: post)) := by
  fun_induction wordLoopIn x se ws with
  | case1 x ws hc => cases h
  | case2 x ws hc =>
      rw [wordLoop_last (strchrAt_frame hc pre post),
        show se + pre.length - 1 = se - 1 + pre.length by omega]
      exact reverse_interval_frame h pre _
  | case3 x ws we hc hr => cases h
  | case4 x ws we hc x₁ hr ih =>
      have hr' := reverse_interval_frame hr pre (0 :: post)
      rw [show we - 1 + (pre.length : Int) = we + pre.length - 1 by omega] at hr'
      rw [wordLoop_next (strchrAt_frame hc pre post) hr', ← ih h]
      congr 1
      exact Int.add_right_comm ..

theorem ptrAdd_zero (p : Int) (n : Nat) : ptrAdd p n = ptrAdd 0 n + p := by
  unfold ptrAdd
  omega

/-- What the function does to the string alone it does wherever the string lies. -/
theorem reverse_string_frame {x x' : List UInt8} (hx : 0 ∉ x) (h : reverse_string_in x = some x')
    (pre post : List UInt8) :
    reverse_string (pre ++ (x ++ 0 :: post)) pre.length = some (pre ++ (x' ++ 0 :: post)) := by
  unfold reverse_string_in at h
  have hn := strlenAt_start hx
  simp only [hn, Option.bind_eq_bind, Option.bind_some, Option.bind_eq_some_iff] at h
  obtain ⟨x₁, h₁, we, hc, h⟩ := h
  have hfirst := reverse_interval_frame h₁ pre (0 :: post)
  have hc' := strchrAt_frame hc pre post
  rw [Int.zero_add] at hfirst hc'
  have hend : ∀ n, ptrAdd 0 n - 1 + (pre.length : Int) = ptrAdd pre.length n - 1 := by
    intro n
    rw [ptrAdd_zero pre.length n]
    omega
  rw [hend] at hfirst
  unfold reverse_string
  simp only [strlenAt_spec hx post rfl, hfirst, hc', Option.bind_eq_bind, Option.bind_some]
  cases we with
  | none =>
      cases h
      rfl
  | some we =>
      have hloop := wordLoop_frame h pre post
      rwa [hend, Int.zero_add] at hloop

/-! ## One interval and one word -/

theorem reverseStep_none {make_upper : Bool} {m : List UInt8} {a b : Int}
    (h : load m a = none ∨ load m b = none) : reverseStep make_upper m a b = none := by
  unfold reverseStep swap_chars
  rcases h with h | h
  · simp only [h, Option.bind_eq_bind, Option.bind_none]
  · cases ha : load m a with
    | none => simp only [Option.bind_eq_bind, Option.bind_none]
    | some t => simp only [h, Option.bind_eq_bind, Option.bind_some, Option.bind_none]

/-- An end outside the memory is a fault in the first round. -/
theorem reverse_interval_none {make_upper : Bool} {m : List UInt8} {a b : Int}
    (h : load m a = none ∨ load m b = none) : reverse_interval m a b make_upper = none := by
  unfold reverse_interval
  rw [reverseLoop, if_pos (Nat.zero_le _)]
  split
  · rfl
  · next hsome =>
      rw [reverseStep_none h] at hsome
      cases hsome

/-- The interval of an empty word: half of -1 is 0, so there is one round, which swaps the two
    bytes around the start of the word. -/
theorem reverse_interval_crossed (pre post : List UInt8) (c d : UInt8) {a b : Int}
    (ha : a = pre.length + 1) (hb : b = pre.length) :
    reverse_interval (pre ++ c :: d :: post) a b false = some (pre ++ d :: c :: post) := by
  have hassoc : ∀ u v : UInt8, pre ++ u :: v :: post = (pre ++ [u]) ++ v :: post := by simp
  have ha' : ∀ u, a = ((pre ++ [u] : List UInt8).length : Int) := by
    intro u
    rw [ha, List.length_append, List.length_singleton]
    rfl
  have hload : load (pre ++ c :: d :: post) a = some d := by
    rw [hassoc, load_at _ _ _ (ha' c)]
  have hstore : store (pre ++ c :: d :: post) a c = some (pre ++ c :: c :: post) := by
    rw [hassoc, store_at _ _ _ _ (ha' c), ← hassoc]
  have hstep : reverseStep false (pre ++ c :: d :: post) a b = some (pre ++ d :: c :: post) := by
    unfold reverseStep swap_chars
    simp only [hload, load_at _ _ _ hb, hstore, store_at _ _ _ _ hb, Option.bind_eq_bind,
      Option.bind_some, Bool.false_eq_true, if_false]
  have hhalf : (((b - a).tdiv 2) % 2 ^ 64).toNat = 0 := by
    rw [show b - a = -1 by omega]
    rfl
  unfold reverse_interval
  rw [hhalf, reverseLoop_next (Nat.le_refl 0) (by decide) hstep, reverseLoop_done Nat.one_pos]

theorem wordLoopIn_last {x : List UInt8} {se ws : Int}
    (hc : strchrAt (x ++ [0]) ws 32 = some none) :
    wordLoopIn x se ws = reverse_interval x ws (se - 1) false := by
  rw [wordLoopIn]
  split
  · next h => rw [hc] at h; cases h
  · rfl
  · next h => rw [hc] at h; cases h

theorem wordLoopIn_next {x : List UInt8} {se ws we : Int}
    (hc : strchrAt (x ++ [0]) ws 32 = some (some we)) :
    wordLoopIn x se ws = (reverse_interval x ws (we - 1) false).bind fun x' =>
      wordLoopIn x' se (we + 1) := by
  rw [wordLoopIn]
  split
  · next h => rw [hc] at h; cases h
  · next h => rw [hc] at h; cases h
  · next we' h =>
      rw [hc] at h
      cases h
      split
      · next h => rw [h]; rfl
      · next h => rw [h]; rfl

variable {s w r : List UInt8}

/-- The string up to a word: nothing, or it ends with a space. -/
def Spaced (s : List UInt8) : Prop := ∃ u, s = u ++ [32]

/-- A word with another one behind it is reversed; if it is empty, two spaces are swapped. -/
theorem wordLoopIn_word (hw : 0 ∉ w ∧ 32 ∉ w) (hs : w ≠ [] ∨ Spaced s)
    (hlen : w.length < 2 ^ 64) (r : List UInt8) {se : Int} :
    wordLoopIn (s ++ (w ++ 32 :: r)) se s.length =
      wordLoopIn ((s ++ (w.reverse ++ [32])) ++ r) se (s ++ (w.reverse ++ [32])).length := by
  have hc : strchrAt (s ++ (w ++ 32 :: r) ++ [0]) s.length 32 =
      some (some ((s.length : Int) + w.length)) := by
    rw [List.append_assoc, List.append_assoc, List.cons_append]
    exact strchrAt_found hw.1 hw.2 _ rfl
  have hr : reverse_interval (s ++ (w ++ 32 :: r)) s.length (s.length + w.length - 1) false =
      some (s ++ (w.reverse ++ 32 :: r)) := by
    by_cases hne : w = []
    · subst hne
      obtain ⟨u, rfl⟩ := hs.resolve_left fun h => h rfl
      have hcrossed := reverse_interval_crossed u r 32 32 (Int.natCast_succ u.length) rfl
      simpa using hcrossed
    · rw [reverse_interval_spec false s w _ hne hlen rfl rfl, raised_false]
  have hassoc : s ++ (w.reverse ++ 32 :: r) = s ++ (w.reverse ++ [32]) ++ r := by simp
  have hpos : (s.length : Int) + w.length + 1 = (s ++ (w.reverse ++ [32])).length := by
    simp only [List.length_append, List.length_reverse, List.length_singleton]
    omega
  rw [wordLoopIn_next hc, hr, Option.bind_some, hassoc, hpos]

/-- An empty first word reaches for the byte in front of the string. -/
theorem wordLoopIn_first_empty (r : List UInt8) (se : Int) :
    wordLoopIn (32 :: r) se 0 = none := by
  have hc : strchrAt (32 :: r ++ [0]) 0 32 = some (some 0) := rfl
  rw [wordLoopIn_next hc, reverse_interval_none (.inr rfl), Option.bind_none]

/-! ## The word loop -/

theorem spaced_cases (hs : s = [] ∨ Spaced s) (w : List UInt8) :
    (w ≠ [] ∨ Spaced s) ∨ (w = [] ∧ s = []) := by
  rcases hs with rfl | hs
  · exact (em (w = [])).elim (fun h => .inr ⟨h, rfl⟩) fun h => .inl (.inl h)
  · exact .inl (.inr hs)

theorem spaced_word (s w : List UInt8) : Spaced (s ++ (w.reverse ++ [32])) :=
  ⟨s ++ w.reverse, by rw [List.append_assoc]⟩

/-- The loop ends inside the string if there is a space in front of every empty word; the
    closing byte `y` is not a space. -/
theorem wordLoopIn_isSome {y : UInt8} (hy : y ≠ 0 ∧ y ≠ 32) (hnul : 0 ∉ r)
    (hlen : r.length < 2 ^ 64) (hs : r.head?.getD 32 = 32 → Spaced s) {se : Int}
    (hse : se = s.length + r.length) :
    (wordLoopIn (s ++ (r ++ [y])) se s.length).isSome := by
  induction r using words_induct (32 : UInt8) generalizing s with
  | last w hw =>
      have hc : strchrAt (s ++ (w ++ [y]) ++ [0]) s.length 32 = some none := by
        have hnul' : 0 ∉ w ++ [y] := by simp [hnul, hy.1.symm]
        have hspace : 32 ∉ w ++ [y] := by simp [hw, hy.2.symm]
        rw [List.append_assoc]
        exact strchrAt_null hnul' hspace (by decide) [] rfl
      rw [wordLoopIn_last hc]
      by_cases hne : w = []
      · -- the space in front of the word and the closing byte change places
        subst hne
        obtain ⟨u, rfl⟩ := hs rfl
        have hmem : u ++ [32] ++ ([] ++ [y]) = u ++ 32 :: y :: [] := by simp
        rw [hmem, reverse_interval_crossed u [] 32 y (by simp) (by simp [hse])]
        rfl
      · rw [reverse_interval_spec false s w [y] hne hlen rfl (by rw [hse])]
        rfl
  | more w r hw ih =>
      rw [List.mem_append, not_or, List.mem_cons, not_or] at hnul
      rw [List.length_append, List.length_cons] at hlen hse
      have hs' : w ≠ [] ∨ Spaced s := by
        cases w with
        | nil => exact .inr (hs rfl)
        | cons _ _ => exact .inl (List.cons_ne_nil _ _)
      rw [List.append_assoc, List.cons_append, wordLoopIn_word ⟨hnul.1, hw⟩ hs' (by omega)]
      refine ih hnul.2.2 (by omega) (fun _ => spaced_word s w) ?_
      simp only [List.length_append, List.length_reverse, List.length_singleton]
      omega

/-- With a space for a closing byte the loop does not end inside the string: a word begins
    where the string ends. -/
theorem wordLoopIn_none (hnul : 0 ∉ r) (hlen : r.length < 2 ^ 64) (hs : s = [] ∨ Spaced s)
    {se : Int} : wordLoopIn (s ++ (r ++ [32])) se s.length = none := by
  induction r using words_induct (32 : UInt8) generalizing s with
  | last w hw =>
      rcases spaced_cases hs w with hs' | ⟨rfl, rfl⟩
      · rw [wordLoopIn_word ⟨hnul, hw⟩ hs' hlen, List.append_nil]
        generalize s ++ (w.reverse ++ [32]) = x
        rw [wordLoopIn_last (strchrAt_null (t := []) (by simp) (by simp) (by decide) [] rfl)]
        refine reverse_interval_none (.inl ?_)
        unfold load
        rw [if_pos (Int.natCast_nonneg _), Int.toNat_natCast,
          List.getElem?_eq_none (Nat.le_refl _)]
      · exact wordLoopIn_first_empty [] se
  | more w r hw ih =>
      rw [List.mem_append, not_or, List.mem_cons, not_or] at hnul
      rw [List.length_append, List.length_cons] at hlen
      rw [List.append_assoc, List.cons_append]
      rcases spaced_cases hs w with hs' | ⟨rfl, rfl⟩
      · rw [wordLoopIn_word ⟨hnul.1, hw⟩ hs' (by omega)]
        have hspaced := spaced_word s w
        exact ih hnul.2.2 (by omega) (.inr hspaced)
      · exact wordLoopIn_first_empty (r ++ [32]) se

/-! ## The string -/

/-- With fewer than two bytes the first pass leaves the string. -/
theorem reverse_string_in_short {x : List UInt8} (hx : 0 ∉ x) (hlen : x.length < 2) :
    reverse_string_in x = none := by
  have hn := strlenAt_start hx
  have hfirst : reverse_interval x 0 (ptrAdd 0 (size_sub x.length 1) - 1) true = none := by
    refine reverse_interval_none (.inr ?_)
    have hcases : x.length = 0 ∨ x.length = 1 := by omega
    unfold load size_sub ptrAdd
    rw [if_neg]
    rcases hcases with h | h <;> rw [h] <;> decide
  unfold reverse_string_in
  simp only [hn, hfirst, Option.bind_eq_bind, Option.bind_some, Option.bind_none]

theorem exists_last_two {x : List UInt8} (h : 2 ≤ x.length) : ∃ u z y, x = u ++ [z, y] := by
  have hx : x ≠ [] := List.ne_nil_of_length_pos (by omega)
  obtain ⟨v, y, rfl⟩ := (List.eq_nil_or_concat' x).resolve_left hx
  rw [List.length_append, List.length_singleton] at h
  have hv : v ≠ [] := List.ne_nil_of_length_pos (by omega)
  obtain ⟨u, z, rfl⟩ := (List.eq_nil_or_concat' v).resolve_left hv
  exact ⟨u, z, y, by rw [List.append_assoc]; rfl⟩

/-- The first pass on a string with the last two bytes `z` and `y`: `y` stays, and `z` comes
    first. -/
theorem first_pass_in (u : List UInt8) (z y : UInt8) (hlen : u.length + 2 < 2 ^ 63) :
    ∃ z' r, reverse_interval (u ++ [z, y]) 0 (ptrAdd 0 (size_sub (u.length + 2) 1) - 1) true =
        some (z' :: r ++ [y]) ∧
      Raised z' z ∧ List.Forall₂ Raised r u.reverse := by
  have hall := List.forall₂_reverse_iff.mpr (raised_forall₂ (u ++ [z]))
  rw [List.reverse_append, List.reverse_singleton, List.singleton_append] at hall
  obtain ⟨z', r, hz, hr, hrev⟩ := List.forall₂_cons_right_iff.mp hall
  refine ⟨z', r, ?_, hz, hr⟩
  have hmem : u ++ [z, y] = [] ++ (u ++ [z] ++ [y]) := by simp
  have hsub : size_sub (u.length + 2) 1 = u.length + 1 := size_sub_of_le (by omega) (by omega)
  have hend : (0 : Int) + (u.length + 1 : Nat) - 1 =
      ([] : List UInt8).length + (u ++ [z]).length - 1 := by simp
  rw [hmem, hsub, ptrAdd_of_lt 0 (by omega), reverse_interval_spec true [] (u ++ [z]) [y] (by simp)
    (by simp; omega) (show (0 : Int) = _ from rfl) hend, hrev]
  rfl

/-- The second pass, from the memory that the first one leaves. -/
theorem second_pass_in {r : List UInt8} {z y : UInt8} (hnul : 0 ∉ z :: r) (hy : y ≠ 0)
    (hlen : (z :: r).length < 2 ^ 64) :
    ((strchrAt (z :: r ++ [y] ++ [0]) 0 32).bind fun we => match we with
      | none => some (z :: r ++ [y])
      | some _ => wordLoopIn (z :: r ++ [y]) (z :: r).length 0).isSome ↔ z ≠ 32 ∧ y ≠ 32 := by
  by_cases hspace : 32 ∈ z :: r ++ [y]
  · obtain ⟨w, t, heq, hw⟩ := List.eq_append_cons_of_mem hspace
    have hw₀ : 0 ∉ w := by
      intro h
      have hmem : 0 ∈ z :: r ++ [y] := heq ▸ List.mem_append_left _ h
      rcases List.mem_append.mp hmem with h | h
      · exact hnul h
      · exact hy (List.mem_singleton.mp h).symm
    have hc : strchrAt (z :: r ++ [y] ++ [0]) 0 32 = some (some ((0 : Int) + w.length)) := by
      rw [heq, List.append_assoc, List.cons_append]
      exact strchrAt_found hw₀ hw _ start_eq
    rw [hc, Option.bind_some]
    dsimp only
    by_cases hy' : y = 32
    · subst hy'
      have hnone : wordLoopIn (z :: r ++ [32]) (z :: r).length 0 = none :=
        wordLoopIn_none (s := []) hnul hlen (.inl rfl)
      refine iff_of_false (fun h => ?_) fun h => h.2 rfl
      rw [hnone] at h
      cases h
    · by_cases hz : z = 32
      · subst hz
        refine iff_of_false (fun h => ?_) fun h => h.1 rfl
        rw [List.cons_append, wordLoopIn_first_empty] at h
        cases h
      · refine iff_of_true ?_ ⟨hz, hy'⟩
        exact wordLoopIn_isSome (s := []) ⟨hy, hy'⟩ hnul hlen (fun h => absurd h hz) (by simp)
  · have hnul' : 0 ∉ z :: r ++ [y] := by
      rw [List.mem_append, List.mem_singleton, not_or]
      exact ⟨hnul, hy.symm⟩
    have hc : strchrAt (z :: r ++ [y] ++ [0]) 0 32 = some none :=
      strchrAt_null hnul' hspace (by decide) [] start_eq
    rw [hc]
    refine iff_of_true rfl ⟨?_, ?_⟩
    · rintro rfl
      exact hspace List.mem_cons_self
    · rintro rfl
      exact hspace (List.mem_append_right _ List.mem_cons_self)

/-- `reverse_string` touches nothing but the bytes of its string, and ends, if and only if the
    string has two bytes or more and none of the last two is a space. -/
theorem in_bounds_iff {x : List UInt8} (hx : 0 ∉ x) (hlen : x.length < 2 ^ 63) :
    ((reverse_string_in x).isSome ↔ 2 ≤ x.length ∧ 32 ∉ x.drop (x.length - 2)) ∧
      ∀ x', reverse_string_in x = some x' → ∀ pre post,
        reverse_string (pre ++ (x ++ 0 :: post)) pre.length = some (pre ++ (x' ++ 0 :: post)) := by
  refine ⟨?_, fun x' h pre post => reverse_string_frame hx h pre post⟩
  by_cases hshort : x.length < 2
  · rw [reverse_string_in_short hx hshort]
    exact iff_of_false Bool.false_ne_true fun h => absurd h.1 (by omega)
  · obtain ⟨u, z, y, rfl⟩ := exists_last_two (Nat.le_of_not_lt hshort)
    have hlast : (u ++ [z, y]).length = u.length + 2 := by simp
    have hn : strlenAt (u ++ [z, y] ++ [0]) 0 = some (u.length + 2) :=
      hlast ▸ strlenAt_start hx
    obtain ⟨z', r, hfirst, hz, hr⟩ := first_pass_in u z y (by omega)
    have hne : 0 ∉ u ∧ 0 ≠ z ∧ 0 ≠ y := by simpa using hx
    have hnul : 0 ∉ z' :: r := by
      refine Raised.not_mem (fun _ => toupper_ne_zero) (.cons hz hr) ?_
      simpa using ⟨hne.2.1, hne.1⟩
    have hrlen : r.length = u.length := by rw [hr.length_eq, List.length_reverse]
    have hspace : z' ≠ 32 ↔ z ≠ 32 := by
      refine not_congr ⟨fun h => ?_, fun h => ?_⟩
      · by_contra hz'
        rcases hz with rfl | rfl
        · exact toupper_ne_space hz' h
        · exact toupper_ne_space (toupper_ne_space hz') h
      · subst h
        rcases hz with rfl | rfl <;> rfl
    have hsecond := second_pass_in hnul hne.2.2.symm (by rw [List.length_cons]; omega)
    have hse : ptrAdd 0 (u.length + 2) - 1 = (z' :: r).length := by
      rw [ptrAdd_of_lt 0 (by omega), List.length_cons, hrlen]
      omega
    unfold reverse_string_in
    simp only [hn, hfirst, hse, Option.bind_eq_bind, Option.bind_some]
    rw [hlast, Nat.add_sub_cancel, List.drop_left]
    refine hsecond.trans ?_
    rw [hspace]
    simp [eq_comm]

/-- "a b", its space in the middle. -/
theorem in_bounds_iff_spaced : (reverse_string_in [97, 32, 98, 10]).isSome :=
  (in_bounds_iff (x := [97, 32, 98, 10]) (by decide) (by decide)).1.mpr (by decide)

/-- A client writes a lone newline to a cleared buffer: the byte in front of the buffer is
    swapped into it. -/
theorem lone_newline :
    reverse_string_in [10] = none ∧
      (example_write ⟨[7, 0, 0], 1, 0, 0⟩ [10] 1 0).map (fun r => r.2.mem) = some [10, 7, 0] := by
  decide +kernel

end KernelBasecamp.Procfs
