/-
  Blocks of at most `n` elements: every block but the last is full, and the last one is whatever
  remains, which is never nothing if there was something.

  * `blocks_flatten`: the blocks one after the other are the list.
  * `blocks_bounds`, `blocks_dropLast_full`, `blocks_getElem?`: how long they are.
  * `blocks_length`: how many there are, `⌈length / n⌉`.
  * `blocks_flatMap`: blocks of codes of one length are the codes of blocks.
-/
import Mathlib

namespace KernelBasecamp.Lib

universe u v

variable {α : Type u} {β : Type v} {n : Nat}

/-- The first `n` elements as long as more than `n` remain, and then the rest. -/
def blocks (n : Nat) (hn : 0 < n) (xs : List α) : List (List α) :=
  if n < xs.length then xs.take n :: blocks n hn (xs.drop n) else [xs]
termination_by xs.length
decreasing_by simp only [List.length_drop]; omega

theorem blocks_of_lt (hn : 0 < n) {xs : List α} (h : n < xs.length) :
    blocks n hn xs = xs.take n :: blocks n hn (xs.drop n) := by
  rw [blocks, if_pos h]

theorem blocks_of_le (hn : 0 < n) {xs : List α} (h : xs.length ≤ n) : blocks n hn xs = [xs] := by
  rw [blocks, if_neg (Nat.not_lt.mpr h)]

theorem blocks_ne_nil (hn : 0 < n) (xs : List α) : blocks n hn xs ≠ [] := by
  rw [blocks]
  split <;> exact List.cons_ne_nil _ _

theorem blocks_flatten (hn : 0 < n) (xs : List α) : (blocks n hn xs).flatten = xs := by
  induction xs using blocks.induct n hn with
  | case1 xs h ih => rw [blocks_of_lt hn h, List.flatten_cons, ih, List.take_append_drop]
  | case2 xs h => rw [blocks_of_le hn (Nat.not_lt.mp h), List.flatten_singleton]

theorem blocks_bounds (hn : 0 < n) {xs : List α} (hxs : 0 < xs.length) :
    ∀ b ∈ blocks n hn xs, 1 ≤ b.length ∧ b.length ≤ n := by
  induction xs using blocks.induct n hn with
  | case1 xs h ih =>
      intro b hb
      rw [blocks_of_lt hn h] at hb
      rcases List.mem_cons.mp hb with rfl | hb
      · rw [List.length_take_of_le (Nat.le_of_lt h)]
        exact ⟨hn, Nat.le_refl n⟩
      · exact ih (by rw [List.length_drop]; omega) b hb
  | case2 xs h =>
      intro b hb
      rw [blocks_of_le hn (Nat.not_lt.mp h), List.mem_singleton] at hb
      subst hb
      exact ⟨hxs, Nat.not_lt.mp h⟩

theorem blocks_dropLast_full (hn : 0 < n) (xs : List α) :
    ∀ b ∈ (blocks n hn xs).dropLast, b.length = n := by
  induction xs using blocks.induct n hn with
  | case1 xs h ih =>
      intro b hb
      rw [blocks_of_lt hn h, List.dropLast_cons_of_ne_nil (blocks_ne_nil hn _)] at hb
      rcases List.mem_cons.mp hb with rfl | hb
      · exact List.length_take_of_le (Nat.le_of_lt h)
      · exact ih b hb
  | case2 xs h =>
      intro b hb
      rw [blocks_of_le hn (Nat.not_lt.mp h)] at hb
      exact absurd hb List.not_mem_nil

/-- A block that is not the last one. -/
theorem blocks_getElem? (hn : 0 < n) (xs : List α) {k : Nat}
    (hk : k + 1 < (blocks n hn xs).length) :
    ∃ b, (blocks n hn xs)[k]? = some b ∧ b.length = n := by
  have hget := List.getElem?_eq_getElem (Nat.lt_of_succ_lt hk)
  refine ⟨_, hget, blocks_dropLast_full hn xs _ (List.mem_of_getElem? (i := k) ?_)⟩
  rw [List.getElem?_dropLast, if_pos (by omega)]
  exact hget

theorem blocks_length (hn : 0 < n) {xs : List α} (hxs : 0 < xs.length) :
    (blocks n hn xs).length = (xs.length + n - 1) / n := by
  induction xs using blocks.induct n hn with
  | case1 xs h ih =>
      have hrest : 0 < (xs.drop n).length := by rw [List.length_drop]; omega
      rw [blocks_of_lt hn h, List.length_cons, ih hrest, List.length_drop,
        ← Nat.add_div_right _ hn]
      congr 1
      omega
  | case2 xs h =>
      rw [blocks_of_le hn (Nat.not_lt.mp h), List.length_singleton]
      -- one block: `n ≤ length + n - 1 < 2 * n`
      exact (Nat.div_eq_of_lt_le (by omega) (by omega)).symm

theorem length_flatMap_const {k : Nat} {f : α → List β} (hf : ∀ a, (f a).length = k)
    (xs : List α) : (xs.flatMap f).length = xs.length * k := by
  induction xs with
  | nil => simp
  | cons x xs ih => rw [List.flatMap_cons, List.length_append, hf, ih, List.length_cons,
      Nat.succ_mul, Nat.add_comm]

theorem blocks_flatMap (hn : 0 < n) {k : Nat} (hnk : 0 < n * k) {f : α → List β}
    (hf : ∀ a, (f a).length = k) (xs : List α) :
    blocks (n * k) hnk (xs.flatMap f) = (blocks n hn xs).map (·.flatMap f) := by
  have hk : 0 < k := Nat.pos_of_mul_pos_left hnk
  induction xs using blocks.induct n hn with
  | case1 xs h ih =>
      have hcut : xs.flatMap f = (xs.take n).flatMap f ++ (xs.drop n).flatMap f := by
        rw [← List.flatMap_append, List.take_append_drop]
      have hfront : ((xs.take n).flatMap f).length = n * k := by
        rw [length_flatMap_const hf, List.length_take_of_le (Nat.le_of_lt h)]
      have hlong : n * k < (xs.flatMap f).length := by
        rw [length_flatMap_const hf]
        exact Nat.mul_lt_mul_of_pos_right h hk
      rw [blocks_of_lt hn h, blocks_of_lt hnk hlong, hcut, List.take_left' hfront,
        List.drop_left' hfront, ih, List.map_cons]
  | case2 xs h =>
      have hshort : (xs.flatMap f).length ≤ n * k := by
        rw [length_flatMap_const hf]
        exact Nat.mul_le_mul_right k (Nat.not_lt.mp h)
      rw [blocks_of_le hn (Nat.not_lt.mp h), blocks_of_le hnk hshort, List.map_singleton]

end KernelBasecamp.Lib
