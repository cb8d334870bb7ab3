/-
  The stretch at the head of a list whose elements meet a predicate (`takeWhile`), and what is
  behind it (`dropWhile`), when more is appended to the list.

  * `takeWhile_append_cons`, `dropWhile_append_cons`: an element that does not meet the predicate
    ends the stretch, whatever follows.
  * `takeWhile_append_of_stop`, `dropWhile_append_of_stop`: a stretch that ends before the list
    does is not changed by what is appended.
-/
import Mathlib

namespace KernelBasecamp.Lib

universe u

variable {α : Type u} {p : α → Bool}

theorem drop_takeWhile_length (p : α → Bool) (l : List α) :
    l.drop (l.takeWhile p).length = l.dropWhile p := by
  have h := List.takeWhile_append_dropWhile (p := p) (l := l)
  nth_rewrite 2 [← h]
  exact List.drop_left

theorem takeWhile_congr_left {q : α → Bool} {l : List α} (h : ∀ a ∈ l, p a = q a) :
    l.takeWhile p = l.takeWhile q := by
  induction l with
  | nil => rfl
  | cons a l ih =>
      rw [List.takeWhile_cons, List.takeWhile_cons, h a List.mem_cons_self,
        ih fun b hb => h b (List.mem_cons_of_mem a hb)]

/-- An element that does not meet `p` ends the stretch, whatever follows. -/
theorem takeWhile_append_cons {c : α} (hc : p c = false) (l rest : List α) :
    (l ++ c :: rest).takeWhile p = l.takeWhile p := by
  have hnone : (c :: rest).takeWhile p = [] :=
    List.takeWhile_cons_of_neg (by rw [hc]; exact Bool.false_ne_true)
  rw [List.takeWhile_append]
  split
  · next h => rw [hnone, List.append_nil, (List.takeWhile_prefix p).eq_of_length h]
  · rfl

theorem dropWhile_append_cons {c : α} (hc : p c = false) (l rest : List α) :
    (l ++ c :: rest).dropWhile p = l.dropWhile p ++ c :: rest := by
  have hall : (c :: rest).dropWhile p = c :: rest :=
    List.dropWhile_cons_of_neg (by rw [hc]; exact Bool.false_ne_true)
  rw [List.dropWhile_append]
  split
  · next h => rw [hall, List.isEmpty_iff.mp h, List.nil_append]
  · rfl

theorem dropWhile_append_of_stop {l : List α} (h : l.dropWhile p ≠ []) (l' : List α) :
    (l ++ l').dropWhile p = l.dropWhile p ++ l' := by
  rw [List.dropWhile_append, if_neg (by rwa [List.isEmpty_iff])]

theorem takeWhile_append_of_stop {l : List α} (h : l.dropWhile p ≠ []) (l' : List α) :
    (l ++ l').takeWhile p = l.takeWhile p := by
  have hlen : (l.takeWhile p).length ≠ l.length := fun hlen =>
    h (List.dropWhile_eq_nil_iff.mpr (List.takeWhile_eq_self_iff.mp
      ((List.takeWhile_prefix p).eq_of_length hlen)))
  rw [List.takeWhile_append, if_neg hlen]

end KernelBasecamp.Lib
