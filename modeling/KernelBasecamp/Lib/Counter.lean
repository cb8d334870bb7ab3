/-
  Readings of a counter that is stored in fewer bits than it counts, and differences of
  successive readings that are rounded down.

  * `ofNat_sub_ofNat`: the wrapped difference of two wrapped readings is the true difference, as
    long as this fits, wherever the counter wraps.
  * `sum_gaps`: the differences over a stretch of readings add up to the one from end to end.
  * `sum_floor_le`, `lt_sum_floor`: rounding each of `k` numbers down loses less than `k`.
-/
import Mathlib

namespace KernelBasecamp.Lib

theorem ofNat_sub_ofNat {w t t' : Nat} (h : t ≤ t') (hgap : t' - t < 2 ^ w) :
    (BitVec.ofNat w t' - BitVec.ofNat w t).toNat = t' - t := by
  have hsub : BitVec.ofNat w t' - BitVec.ofNat w t = BitVec.ofNat w (t' - t) := by
    apply BitVec.sub_eq_iff_eq_add.mpr
    rw [← BitVec.ofNat_add, Nat.sub_add_cancel h]
  rw [hsub, BitVec.toNat_ofNat, Nat.mod_eq_of_lt hgap]

/-! ## Differences of neighbours -/

def gaps : List Nat → List Nat
  | t :: t' :: ts => (t' - t) :: gaps (t' :: ts)
  | _ => []

theorem length_gaps (t : Nat) (ts : List Nat) : (gaps (t :: ts)).length = ts.length := by
  induction ts generalizing t with
  | nil => rfl
  | cons t' ts ih => rw [gaps, List.length_cons, ih, List.length_cons]

/-- `k` differences, from the reading `i` on. -/
theorem sum_gaps {ts : List Nat} (h : List.IsChain (· ≤ ·) ts) {i k a b : Nat}
    (ha : ts[i]? = some a) (hb : ts[i + k]? = some b) :
    a + (((gaps ts).drop i).take k).sum = b := by
  induction ts generalizing i k a with
  | nil => cases ha
  | cons t ts ih =>
      cases ts with
      | nil =>
          cases i with
          | succ i => cases ha
          | zero =>
              cases k with
              | succ k => rw [Nat.zero_add] at hb; cases hb
              | zero => cases ha; cases hb; rfl
      | cons t' ts =>
          rw [List.isChain_cons_cons] at h
          rw [gaps]
          cases i with
          | succ i =>
              rw [Nat.succ_add_eq_add_succ, Nat.add_succ] at hb
              rw [List.drop_succ_cons]
              exact ih h.2 ha hb
          | zero =>
              cases ha
              cases k with
              | zero => cases hb; rfl
              | succ k =>
                  have hrest := ih h.2 (i := 0) (k := k) (a := t') rfl (by simpa using hb)
                  rw [List.drop_zero] at hrest ⊢
                  rw [List.take_succ_cons, List.sum_cons]
                  omega

/-! ## Rounding down -/

variable {n : Nat} (hn : 0 < n) (gs : List Nat)
include hn

theorem mul_sum_floor_bounds : n * (gs.map (· / n)).sum ≤ gs.sum ∧
    gs.sum + gs.length ≤ n * ((gs.map (· / n)).sum + gs.length) := by
  induction gs with
  | nil => simp
  | cons g gs ih =>
      have hlow := Nat.mul_div_le g n
      have hhigh := Nat.lt_mul_div_succ g hn
      simp only [List.map_cons, List.sum_cons, List.length_cons, Nat.mul_add] at ih hhigh ⊢
      omega

theorem sum_floor_le : ((gs.map (· / n)).sum : ℚ) ≤ (gs.sum : ℚ) / n := by
  rw [le_div_iff₀ (by exact_mod_cast hn), mul_comm]
  exact_mod_cast (mul_sum_floor_bounds hn gs).1

theorem lt_sum_floor (hgs : gs ≠ []) :
    (gs.sum : ℚ) / n - gs.length < ((gs.map (· / n)).sum : ℚ) := by
  have hpos := List.length_pos_of_ne_nil hgs
  have hbound := (mul_sum_floor_bounds hn gs).2
  rw [sub_lt_iff_lt_add, div_lt_iff₀ (by exact_mod_cast hn), mul_comm]
  exact_mod_cast (show gs.sum < n * ((gs.map (· / n)).sum + gs.length) by omega)

end KernelBasecamp.Lib
