/-
  A memory of `n` cells that is written through a cursor, which moves on with every value and
  from the last cell back to the first.

  * `stores_cursor`: where a list of values leaves the cursor.
  * `stores_cell`: up to `n` values stand in their order from where the cursor was.
  * `stores_full`: after `n` values the cursor is back, and every cell is a new one.
-/
import Mathlib

namespace KernelBasecamp.Lib

universe u

structure Cyclic (α : Type u) where
  cells : Nat → α
  cursor : Nat

namespace Cyclic

variable {α : Type u} {n : Nat}

def store (n : Nat) (c : Cyclic α) (a : α) : Cyclic α :=
  ⟨Function.update c.cells c.cursor a, if c.cursor + 1 = n then 0 else c.cursor + 1⟩

/-- One value after the other. -/
def stores (n : Nat) (c : Cyclic α) (xs : List α) : Cyclic α := xs.foldl (store n) c

theorem stores_concat (c : Cyclic α) (xs : List α) (a : α) :
    stores n c (xs ++ [a]) = store n (stores n c xs) a := by
  unfold stores
  rw [List.foldl_concat]

theorem store_cursor {c : Cyclic α} (hc : c.cursor < n) (a : α) :
    (store n c a).cursor = (c.cursor + 1) % n := by
  unfold store
  dsimp only
  split
  · next h => rw [h, Nat.mod_self]
  · next h => exact (Nat.mod_eq_of_lt (by omega)).symm

theorem stores_cursor {c : Cyclic α} (hc : c.cursor < n) (xs : List α) :
    (stores n c xs).cursor = (c.cursor + xs.length) % n := by
  induction xs using List.reverseRecOn with
  | nil => exact (Nat.mod_eq_of_lt hc).symm
  | append_singleton xs a ih =>
      have hlt : (stores n c xs).cursor < n := ih ▸ Nat.mod_lt _ (by omega)
      rw [stores_concat, store_cursor hlt, ih, Nat.mod_add_mod, List.length_append,
        List.length_singleton, Nat.add_assoc]

/-- Steps of less than `n` from one place lead to different cells. -/
theorem offset_inj {k i j : Nat} (hi : i < n) (hj : j < n) (h : (k + i) % n = (k + j) % n) :
    i = j := by
  have hmod : i ≡ j [MOD n] := Nat.ModEq.add_left_cancel' k h
  exact hmod.eq_of_lt_of_lt hi hj

theorem stores_cell {c : Cyclic α} (hc : c.cursor < n) {xs : List α} (hxs : xs.length ≤ n)
    {i : Nat} {a : α} (hi : xs[i]? = some a) :
    (stores n c xs).cells ((c.cursor + i) % n) = a := by
  induction xs using List.reverseRecOn with
  | nil => cases hi
  | append_singleton xs b ih =>
      rw [List.length_append, List.length_singleton] at hxs
      rw [stores_concat]
      unfold store
      dsimp only
      rw [stores_cursor hc]
      rcases Nat.lt_or_ge i xs.length with hlt | hge
      · -- the new value is put into a later cell
        have hne : (c.cursor + i) % n ≠ (c.cursor + xs.length) % n := fun h =>
          Nat.ne_of_lt hlt (offset_inj (by omega) (by omega) h)
        rw [List.getElem?_append_left hlt] at hi
        rw [Function.update_of_ne hne, ih (by omega) hi]
      · have hlen := (List.getElem?_eq_some_iff.mp hi).1
        rw [List.length_append, List.length_singleton] at hlen
        obtain rfl : i = xs.length := by omega
        rw [List.getElem?_concat_length, Option.some.injEq] at hi
        rw [Function.update_self, hi]

/-- `n` values: the cursor is where it was, and the value `j` stands `j` cells behind it. -/
theorem stores_full {c : Cyclic α} (hc : c.cursor < n) {xs : List α} (hxs : xs.length = n) :
    (stores n c xs).cursor = c.cursor ∧
      ∀ i a, xs[i]? = some a → (stores n c xs).cells ((c.cursor + i) % n) = a := by
  refine ⟨?_, fun i a hi => stores_cell hc (Nat.le_of_eq hxs) hi⟩
  rw [stores_cursor hc, hxs, Nat.add_mod_right, Nat.mod_eq_of_lt hc]

end Cyclic

end KernelBasecamp.Lib
