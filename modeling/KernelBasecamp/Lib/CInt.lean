/-
  Signed C integers as integers: `wrap w` brings a value into the range of `w` bits,
  `toUnsigned` stores one in an unsigned int, and `divide` is the division that truncates, with
  its two faults.
-/
import Mathlib

namespace KernelBasecamp.Lib.CInt

/-- `x` is a value of a signed integer of `w` bits. -/
def InRange (w : Nat) (x : Int) : Prop := -2 ^ (w - 1) ≤ x ∧ x < 2 ^ (w - 1)

instance (w : Nat) (x : Int) : Decidable (InRange w x) := inferInstanceAs (Decidable (_ ∧ _))

/-- What a signed integer of `w` bits keeps of `x`. -/
def wrap (w : Nat) (x : Int) : Int := x.bmod (2 ^ w)

theorem two_pow_pred {w : Nat} (hw : 0 < w) : (2 : Int) ^ w = 2 * 2 ^ (w - 1) := by
  obtain ⟨k, rfl⟩ := Nat.exists_eq_succ_of_ne_zero (Nat.ne_of_gt hw)
  rw [Nat.succ_eq_add_one, Nat.add_sub_cancel, Int.pow_succ, Int.mul_comm]

theorem wrap_of_inRange {w : Nat} (hw : 0 < w) {x : Int} (h : InRange w x) : wrap w x = x := by
  have hpow := two_pow_pred hw
  obtain ⟨hlo, hhi⟩ := h
  have hcast : ((2 ^ w : Nat) : Int) = 2 ^ w := by simp
  exact Int.bmod_eq_of_le_mul_two (by rw [hcast]; omega) (by rw [hcast]; omega)

theorem inRange_wrap {w : Nat} (hw : 0 < w) (x : Int) : InRange w (wrap w x) := by
  have hpow := two_pow_pred hw
  have hcast : ((2 ^ w : Nat) : Int) = 2 ^ w := by simp
  have hpos : 0 < 2 ^ w := Nat.pow_pos Nat.two_pos
  have hlo := Int.le_bmod (x := x) hpos
  have hhi := Int.bmod_lt (x := x) hpos
  unfold InRange wrap
  rw [hcast, hpow] at hlo hhi
  omega

theorem wrap_eq_self_iff {w : Nat} (hw : 0 < w) {x : Int} : wrap w x = x ↔ InRange w x :=
  ⟨fun h => h ▸ inRange_wrap hw x, wrap_of_inRange hw⟩

/-- What is lost is a multiple of `2 ^ w`. -/
theorem wrap_eq_sub (w : Nat) (x : Int) : ∃ k, wrap w x = x - 2 ^ w * k := by
  obtain ⟨k, hk⟩ := Int.dvd_self_sub_bmod (x := x) (m := 2 ^ w)
  have hcast : ((2 ^ w : Nat) : Int) = 2 ^ w := by simp
  rw [hcast] at hk
  refine ⟨k, ?_⟩
  unfold wrap
  omega

/-- Wrapping an operand makes no difference to the wrapped result. -/
theorem wrap_wrap_mul (w : Nat) (a b : Int) : wrap w (wrap w a * b) = wrap w (a * b) :=
  Int.bmod_mul_bmod

theorem wrap_add_wrap (w : Nat) (a b : Int) : wrap w (a + wrap w b) = wrap w (a + b) :=
  Int.add_bmod_bmod

/-- The unsigned int with the bits of `x`. -/
def toUnsigned (x : Int) : UInt32 := UInt32.ofNat (x % 2 ^ 32).toNat

/-- `a / b`; `none` for a zero divisor and for the one quotient that does not fit. -/
def divide (w : Nat) (a b : Int) : Option Int :=
  if b = 0 ∨ a = -2 ^ (w - 1) ∧ b = -1 then none else some (a.tdiv b)

theorem divide_isSome_iff {w : Nat} {a b : Int} :
    (divide w a b).isSome ↔ ¬ (b = 0 ∨ a = -2 ^ (w - 1) ∧ b = -1) := by
  unfold divide
  split
  · next h => exact iff_of_false Bool.false_ne_true fun hn => hn h
  · next h => exact iff_of_true rfl h

theorem divide_of_pos {w : Nat} {a b : Int} (hb : 0 < b) : divide w a b = some (a.tdiv b) := by
  unfold divide
  rw [if_neg (by omega)]

/-- By a positive divisor of the type, a wrapped dividend gives the right quotient only when
    nothing was wrapped. -/
theorem tdiv_wrap_eq_iff {w : Nat} (hw : 0 < w) {x b : Int} (hb : 0 < b) (hrange : InRange w b) :
    (wrap w x).tdiv b = x.tdiv b ↔ InRange w x := by
  constructor
  · intro heq
    obtain ⟨k, hk⟩ := wrap_eq_sub w x
    have hpow := two_pow_pred hw
    have hlt := hrange.2
    have hx := Int.mul_tdiv_add_tmod x b
    have hy := Int.mul_tdiv_add_tmod (wrap w x) b
    have hxlo := Int.lt_tmod_of_pos x hb
    have hylo := Int.lt_tmod_of_pos (wrap w x) hb
    have hxhi := Int.tmod_lt_of_pos x hb
    have hyhi := Int.tmod_lt_of_pos (wrap w x) hb
    rw [heq] at hy
    have hpos : (0 : Int) ≤ 2 ^ w := by omega
    -- the two remainders are less than `2 ^ w` apart
    have hk0 : k = 0 := by
      rcases Int.lt_trichotomy k 0 with hlt | heq | hgt
      · have := Int.mul_le_mul_of_nonneg_left (show k ≤ -1 by omega) hpos
        omega
      · exact heq
      · have := Int.mul_le_mul_of_nonneg_left (show 1 ≤ k by omega) hpos
        omega
    rw [hk0, Int.mul_zero, Int.sub_zero] at hk
    exact (wrap_eq_self_iff hw).mp hk
  · intro h
    rw [wrap_of_inRange hw h]

end KernelBasecamp.Lib.CInt
