/-
  Decimal numbers with a point: an optional minus, digits, a point, and digits behind it.

  `decimalValue` is the rational number that such a text denotes. `decimalValue_intText` says
  what it makes of two printed integers with a point between them: the second one stands for
  as many places as it has digits, and a minus in front of it is no part of a number.
-/
import Mathlib
import KernelBasecamp.Lib.Decimal
import KernelBasecamp.Lib.Sscanf

namespace KernelBasecamp.Lib.Decimal

open Sscanf

/-! ## Reading printed digits -/

theorem natText_ne_nil (n : Nat) : natText n ≠ [] := by
  unfold natText
  split
  · exact List.cons_ne_nil _ _
  · next h =>
      rw [Ne, List.map_eq_nil_iff, List.reverse_eq_nil_iff]
      exact Nat.digits_ne_nil_iff_ne_zero.mpr h

theorem isdigit_digit {d : Nat} (hd : d < 10) : isdigit (digit d) = true := by
  have hall : ∀ d < 10, isdigit (digit d) = true := by decide
  exact hall d hd

theorem toNat_digit {d : Nat} (hd : d < 10) : (digit d).toNat - 48 = d := by
  have hall : ∀ d < 10, (digit d).toNat - 48 = d := by decide
  exact hall d hd

theorem isdigit_of_mem_natText {n : Nat} {c : UInt8} (hc : c ∈ natText n) : isdigit c = true := by
  unfold natText at hc
  split at hc
  · obtain rfl := List.mem_singleton.mp hc
    rfl
  · obtain ⟨d, hd, rfl⟩ := List.mem_map.mp hc
    exact isdigit_digit (Nat.digits_lt_base (by decide) (List.mem_reverse.mp hd))

theorem digitsValue_reverse {ds : List Nat} (h : ∀ d ∈ ds, d < 10) :
    digitsValue (ds.reverse.map digit) = Nat.ofDigits 10 ds := by
  induction ds with
  | nil => rfl
  | cons d ds ih =>
      rw [List.reverse_cons, List.map_append, List.map_singleton, digitsValue_concat,
        ih fun e he => h e (List.mem_cons_of_mem d he), toNat_digit (h d List.mem_cons_self),
        Nat.ofDigits_cons, Nat.add_comm]

/-- The printed number is read back. -/
theorem digitsValue_natText (n : Nat) : digitsValue (natText n) = n := by
  unfold natText
  split
  · next h => rw [h]; rfl
  · rw [digitsValue_reverse fun d hd => Nat.digits_lt_base (by decide) hd, Nat.ofDigits_digits]

/-! ## Numbers with a point -/

/-- A number without a sign. -/
def unsignedValue (t : List UInt8) : Option ℚ :=
  let whole := t.takeWhile isdigit
  let rest := t.drop whole.length
  let fraction := rest.tail
  if whole ≠ [] ∧ rest.head? = some 46 ∧ fraction ≠ [] ∧ ∀ c ∈ fraction, isdigit c then
    some ((digitsValue whole : ℚ) + digitsValue fraction / 10 ^ fraction.length)
  else none

def decimalValue (t : List UInt8) : Option ℚ :=
  if t.head? = some 45 then (unsignedValue t.tail).map fun x => -x else unsignedValue t

theorem takeWhile_natText (n : Nat) {c : UInt8} (hc : isdigit c = false) (t : List UInt8) :
    (natText n ++ c :: t).takeWhile isdigit = natText n := by
  rw [List.takeWhile_append_of_pos fun _ hd => isdigit_of_mem_natText hd,
    List.takeWhile_cons_of_neg (by rw [hc]; exact Bool.false_ne_true), List.append_nil]

theorem unsignedValue_point (n : Nat) (fraction : List UInt8) :
    unsignedValue (natText n ++ 46 :: fraction) =
      if fraction ≠ [] ∧ ∀ c ∈ fraction, isdigit c then
        some ((n : ℚ) + digitsValue fraction / 10 ^ fraction.length)
      else none := by
  have hpoint : isdigit 46 = false := by decide
  unfold unsignedValue
  dsimp only
  rw [takeWhile_natText n hpoint, List.drop_left, List.head?_cons, List.tail_cons,
    digitsValue_natText]
  simp only [ne_eq, natText_ne_nil, not_false_eq_true, true_and]

/-- Two integers printed with a point between them. -/
theorem decimalValue_intText (l r : Int) :
    decimalValue (intText l ++ 46 :: intText r) =
      if r < 0 then none
      else some ((if l < 0 then -1 else 1 : ℚ) *
        (l.natAbs + r.natAbs / 10 ^ (natText r.natAbs).length)) := by
  have hunsigned : unsignedValue (natText l.natAbs ++ 46 :: intText r) =
      if r < 0 then none
      else some ((l.natAbs : ℚ) + r.natAbs / 10 ^ (natText r.natAbs).length) := by
    rw [unsignedValue_point]
    unfold intText
    split
    · next hr =>
        refine if_neg fun h => ?_
        have hminus := h.2 45 List.mem_cons_self
        revert hminus
        decide
    · rw [digitsValue_natText]
      exact if_pos ⟨natText_ne_nil _, fun c hc => isdigit_of_mem_natText hc⟩
  unfold decimalValue
  by_cases hl : l < 0
  · have htext : intText l = 45 :: natText l.natAbs := if_pos hl
    rw [htext, List.cons_append, List.head?_cons, if_pos rfl, List.tail_cons, hunsigned,
      if_pos hl]
    split
    · rfl
    · rw [Option.map_some, neg_one_mul]
  · have htext : intText l = natText l.natAbs := if_neg hl
    have hhead : (natText l.natAbs ++ 46 :: intText r).head? ≠ some 45 := by
      intro h
      rw [List.head?_append_of_ne_nil _ (natText_ne_nil _)] at h
      have hdigit := isdigit_of_mem_natText (List.mem_of_mem_head? h)
      revert hdigit
      decide
    rw [htext, if_neg hhead, hunsigned, if_neg hl]
    split
    · rfl
    · rw [one_mul]

/-- How many digits are printed. -/
theorem length_natText {n k : Nat} (hlo : 10 ^ k ≤ n) (hhi : n < 10 ^ (k + 1)) :
    (natText n).length = k + 1 := by
  have hpos : 0 < 10 ^ k := Nat.pow_pos (by decide)
  have hle := length_natText_le (Nat.succ_pos k) hhi
  have hlt : k < (natText n).length := by
    unfold natText
    rw [if_neg (by omega), List.length_map, List.length_reverse]
    exact (Nat.lt_digits_length_iff (by decide) n).mpr hlo
  omega

theorem length_natText_digit {n : Nat} (hn : n < 10) : (natText n).length = 1 := by
  have hpos := List.length_pos_of_ne_nil (natText_ne_nil n)
  have hle := length_natText_le Nat.one_pos hn
  omega

end KernelBasecamp.Lib.Decimal
