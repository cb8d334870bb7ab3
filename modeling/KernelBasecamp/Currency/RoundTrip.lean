/-
  Converting there and back.

  For a positive rate and an amount whose hundredfold fits, the hundredths that `uah_to_eu` gives
  are the quotient `100 * u / rate` rounded down (`uah_to_eu_nonneg`): the error bound and the two
  monotonicities are those of the division. What `eu_to_uah` gives is a multiple of the rate, so
  the division of the way back is exact (`uah_to_eu_eu_to_uah`).
-/
import Mathlib
import KernelBasecamp.Currency.Arithmetic

namespace KernelBasecamp.Currency

open Lib.CInt

/-- What the users of an exchange rely on, for conversions that give the whole part of the result
    and its hundredths. -/
structure FairExchange (toUah : Int → Int → Int × Int) (toEu : Int → Int → Option (Int × Int)) :
    Prop where
  /-- There and back is exact. -/
  there_and_back {rate e : Int} : 1 ≤ rate → InRange 32 (100 * e * rate) →
    ∃ l, toUah e rate = (l, 0) ∧ toEu l rate = some (e, 0)
  /-- The result is less than a hundredth short. -/
  tight {rate u : Int} : 1 ≤ rate → 0 ≤ u → InRange 32 (100 * u) →
    ∃ l r, toEu u rate = some (l, r) ∧ 0 ≤ r ∧ r < 100 ∧
      (100 * l + r) * rate ≤ 100 * u ∧ 100 * u < (100 * l + r + 1) * rate
  /-- More of one currency is no less of the other. -/
  monotone {rate u u' l r l' r' : Int} : 1 ≤ rate → 0 ≤ u → u ≤ u' → InRange 32 (100 * u') →
    toEu u rate = some (l, r) → toEu u' rate = some (l', r') → 100 * l + r ≤ 100 * l' + r'
  /-- At a higher rate it is no more. -/
  antitone {rate rate' u l r l' r' : Int} : 1 ≤ rate → rate ≤ rate' → 0 ≤ u →
    InRange 32 (100 * u) → toEu u rate = some (l, r) → toEu u rate' = some (l', r') →
    100 * l' + r' ≤ 100 * l + r

/-! ## converter.c -/

namespace Converter

theorem uah_to_eu_nonneg {u rate : Int} (hrate : 1 ≤ rate) (hu : 0 ≤ u)
    (hrange : InRange 32 (100 * u)) :
    uah_to_eu u rate = some (100 * u / rate / 100, 100 * u / rate % 100) := by
  have hdividend : (0 : Int) ≤ 100 * u := by omega
  have hquotient : 0 ≤ 100 * u / rate := Int.ediv_nonneg hdividend (by omega)
  unfold uah_to_eu
  rw [wrap_of_inRange (by decide) hrange, divide_of_pos hrate, Int.tdiv_eq_ediv_of_nonneg hdividend]
  exact congrArg some (Prod.ext (Int.tdiv_eq_ediv_of_nonneg hquotient)
    (Int.tmod_eq_emod_of_nonneg hquotient))

/-- The hundredths of a result. -/
theorem hundredths_eq {u rate l r : Int} (hrate : 1 ≤ rate) (hu : 0 ≤ u)
    (hrange : InRange 32 (100 * u)) (h : uah_to_eu u rate = some (l, r)) :
    100 * l + r = 100 * u / rate := by
  rw [uah_to_eu_nonneg hrate hu hrange] at h
  cases h
  exact Int.mul_ediv_add_emod _ _

theorem eu_to_uah_inRange {e rate : Int} (hrange : InRange 32 (100 * e * rate)) :
    eu_to_uah e rate = (e * rate, 0) := by
  unfold eu_to_uah
  dsimp only
  rw [wrap_wrap_mul, wrap_of_inRange (by decide) hrange, Int.mul_assoc,
    Int.mul_tdiv_cancel_left _ (by decide), Int.mul_tmod_right]

theorem uah_to_eu_eu_to_uah {e rate : Int} (hrate : 1 ≤ rate)
    (hrange : InRange 32 (100 * e * rate)) :
    uah_to_eu (e * rate) rate = some (e, 0) := by
  unfold uah_to_eu
  rw [← Int.mul_assoc, wrap_of_inRange (by decide) hrange, divide_of_pos hrate,
    Int.mul_tdiv_cancel _ (by omega)]
  exact congrArg some (Prod.ext (Int.mul_tdiv_cancel_left _ (by decide)) (Int.mul_tmod_right _ _))

theorem fairExchange : FairExchange eu_to_uah uah_to_eu where
  there_and_back {rate e} hrate hrange :=
    ⟨e * rate, eu_to_uah_inRange hrange, uah_to_eu_eu_to_uah hrate hrange⟩
  tight {rate u} hrate hu hrange := by
    refine ⟨_, _, uah_to_eu_nonneg hrate hu hrange, Int.emod_nonneg _ (by decide),
      Int.emod_lt_of_pos _ (by decide), ?_⟩
    rw [Int.mul_ediv_add_emod]
    exact ⟨Int.ediv_mul_le _ (by omega), Int.lt_ediv_add_one_mul_self _ (by omega)⟩
  monotone {rate u u' l r l' r'} hrate hu huu' hrange h h' := by
    have hrange₀ : InRange 32 (100 * u) := by
      unfold InRange at *
      omega
    rw [hundredths_eq hrate hu hrange₀ h, hundredths_eq hrate (by omega) hrange h']
    exact Int.ediv_le_ediv hrate (by omega)
  antitone {rate rate' u l r l' r'} hrate hrates hu hrange h h' := by
    rw [hundredths_eq hrate hu hrange h, hundredths_eq (by omega) hu hrange h']
    -- the smaller quotient times the smaller rate is still at most the dividend
    refine (Int.le_ediv_iff_mul_le hrate).mpr ?_
    calc 100 * u / rate' * rate ≤ 100 * u / rate' * rate' :=
          Int.mul_le_mul_of_nonneg_left hrates (Int.ediv_nonneg (by omega) (by omega))
      _ ≤ 100 * u := Int.ediv_mul_le _ (by omega)

end Converter

/-! ## Both modules -/

/-- The state with an amount for `eu_to_uah` and a rate. -/
def State.giveEu (s : State) (amount rate : Int) : State :=
  { s with current_exchange_rate := rate, eu := { s.eu with amount } }

/-- The state with an amount for `uah_to_eu` and a rate. -/
def State.giveUah (s : State) (amount rate : Int) : State :=
  { s with current_exchange_rate := rate, uah := { s.uah with amount } }

/-- The conversions of converter.c, and those of exchange.c in whatever states they are called,
    are a fair exchange. -/
theorem conversions_fair (s t : State) :
    FairExchange Converter.eu_to_uah Converter.uah_to_eu ∧
    FairExchange (fun e rate => (eu_to_uah (s.giveEu e rate)).uahFields)
      (fun u rate => (uah_to_eu (t.giveUah u rate)).map State.euFields) := by
  refine ⟨Converter.fairExchange, ?_⟩
  simp only [uah_to_eu_fields, eu_to_uah_fields]
  exact Converter.fairExchange

end KernelBasecamp.Currency
