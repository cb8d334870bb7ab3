/-
  What `%d` prints: the decimal digits of an integer, behind a minus if it is negative.

  The lemmas bound the length of the text and say that it holds no terminator, which is what
  a caller needs to know of a `sprintf` into a fixed buffer.
-/
import Mathlib

namespace KernelBasecamp.Lib.Decimal

def digit (d : Nat) : UInt8 := 48 + UInt8.ofNat d

def natText (n : Nat) : List UInt8 :=
  if n = 0 then [48] else (Nat.digits 10 n).reverse.map digit

def intText (n : Int) : List UInt8 := if n < 0 then 45 :: natText n.natAbs else natText n.natAbs

theorem digit_ne_zero {d : Nat} (hd : d < 10) : digit d ≠ 0 := by
  have hall : ∀ d < 10, digit d ≠ 0 := by decide
  exact hall d hd

theorem nul_not_mem_natText (n : Nat) : 0 ∉ natText n := by
  unfold natText
  split
  · decide
  · intro h0
    obtain ⟨d, hd, hzero⟩ := List.mem_map.mp h0
    exact digit_ne_zero (Nat.digits_lt_base (by decide) (List.mem_reverse.mp hd)) hzero

theorem nul_not_mem_intText (n : Int) : 0 ∉ intText n := by
  have hnat := nul_not_mem_natText n.natAbs
  unfold intText
  split
  · exact List.not_mem_cons_of_ne_of_not_mem (by decide) hnat
  · exact hnat

theorem length_natText_le {n k : Nat} (hk : 0 < k) (hn : n < 10 ^ k) :
    (natText n).length ≤ k := by
  unfold natText
  split
  · exact hk
  · rw [List.length_map, List.length_reverse]
    exact (Nat.digits_length_le_iff (by decide) n).mpr hn

theorem length_intText_le {n : Int} {k : Nat} (hk : 0 < k) (hn : n.natAbs < 10 ^ k) :
    (intText n).length ≤ k + 1 := by
  have hnat := length_natText_le hk hn
  unfold intText
  split
  · exact Nat.succ_le_succ hnat
  · exact Nat.le_succ_of_le hnat

end KernelBasecamp.Lib.Decimal
