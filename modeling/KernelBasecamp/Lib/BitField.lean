/-
  Bit fields of machine words: `k` bits from the bit `s` on.

  A field is read by `extractLsb'` and replaced by `putField`; single bits are set and cleared with
  a mask. What a field that does not overlap holds stays as it was.
-/
import Mathlib

namespace KernelBasecamp.Lib

variable {n k : Nat}

/-- `(w & ~(mask << s)) | (v << s)`, where `mask` has `k` bits. -/
def putField (w : BitVec n) (s : Nat) (v : BitVec k) : BitVec n :=
  (w &&& ~~~((BitVec.allOnes k).setWidth n <<< s)) ||| (v.setWidth n <<< s)

theorem getLsbD_putField (w : BitVec n) (s : Nat) (v : BitVec k) {i : Nat} (hi : i < n) :
    (putField w s v).getLsbD i =
      if s ≤ i ∧ i < s + k then v.getLsbD (i - s) else w.getLsbD i := by
  unfold putField
  rcases Nat.lt_or_ge i s with hlow | hlow
  · rw [if_neg (by omega)]
    simp [hi, hlow]
  · rcases Nat.lt_or_ge i (s + k) with hhigh | hhigh
    · rw [if_pos ⟨hlow, hhigh⟩]
      simp [hi, show ¬ i < s by omega, show i - s < k by omega]
    · rw [if_neg (by omega)]
      have hout : v.getLsbD (i - s) = false := BitVec.getLsbD_of_ge v _ (by omega)
      simp [hi, show ¬ i < s by omega, show ¬ i - s < k by omega, hout]

/-- The field that was replaced. -/
theorem extract_putField (w : BitVec n) {s : Nat} (v : BitVec k) (h : s + k ≤ n) :
    (putField w s v).extractLsb' s k = v := by
  refine BitVec.eq_of_getLsbD_eq fun i hi => ?_
  rw [BitVec.getLsbD_extractLsb', getLsbD_putField w s v (by omega), if_pos (by omega),
    Nat.add_sub_cancel_left, decide_eq_true hi, Bool.true_and]

/-- A field that does not overlap. -/
theorem extract_putField_of_disjoint (w : BitVec n) {s : Nat} (v : BitVec k) {s' k' : Nat}
    (hn : s' + k' ≤ n) (h : s' + k' ≤ s ∨ s + k ≤ s') :
    (putField w s v).extractLsb' s' k' = w.extractLsb' s' k' := by
  refine BitVec.eq_of_getLsbD_eq fun i hi => ?_
  rw [BitVec.getLsbD_extractLsb', BitVec.getLsbD_extractLsb', getLsbD_putField w s v (by omega),
    if_neg (by omega)]

/-- `1 << s`. -/
theorem getLsbD_one_shiftLeft {s i : Nat} (hi : i < n) :
    (1#n <<< s).getLsbD i = decide (i = s) := by
  rw [BitVec.getLsbD_shiftLeft, BitVec.getLsbD_one, decide_eq_true hi, Bool.true_and,
    Bool.eq_iff_iff]
  simp only [Bool.and_eq_true, Bool.not_eq_true', decide_eq_true_eq, decide_eq_false_iff_not]
  omega

/-- A word has no other bits than `1 << s`. -/
theorem and_one_shiftLeft_ne_zero {w : BitVec n} {s : Nat} (hs : s < n) :
    w &&& 1#n <<< s ≠ 0#n ↔ w.getLsbD s = true := by
  constructor
  · intro hne
    by_contra hbit
    refine hne (BitVec.eq_of_getLsbD_eq fun i hi => ?_)
    rw [BitVec.getLsbD_and, getLsbD_one_shiftLeft hi, BitVec.getLsbD_zero]
    by_cases his : i = s
    · rw [his, Bool.eq_false_iff.mpr hbit, Bool.false_and]
    · rw [decide_eq_false his, Bool.and_false]
  · intro hbit hzero
    have hs' : (w &&& 1#n <<< s).getLsbD s = false := by rw [hzero, BitVec.getLsbD_zero]
    rw [BitVec.getLsbD_and, getLsbD_one_shiftLeft hs, hbit, decide_eq_true rfl] at hs'
    exact absurd hs' (by decide)

end KernelBasecamp.Lib
