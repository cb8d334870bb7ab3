/-
  The arithmetic of the conversions in 32 bits.

  Amounts are scaled by 100 in an `int`, so the result is that of the integers only for a small
  part of the amounts and rates that the module takes; and a read divides by a rate that nothing
  has checked.

  * `division_safe_iff`: in every state reached, the division of a read faults exactly when the
    rate last stored is 0, or is -1 with an amount whose hundredfold wraps to the least `int`.
  * `conversions_exact_iff`: for a positive rate, a conversion is exact if and only if the
    amount, or the product of amount and rate, is `Scalable`.
-/
import KernelBasecamp.Currency.Converter
import KernelBasecamp.Currency.Files

namespace KernelBasecamp.Currency

open Lib Lib.CInt Lib.CMem Lib.Sscanf

/-! ## The divisor -/

/-- The rate that a call sets, if it sets one. -/
def Act.rates : Act → Option Int
  | .rate buf => (scanInt buf).join.map fun x => wrap 32 x.1
  | _ => none

/-- The number of the last rate text that held one; 31 before. -/
def lastRate (acts : List Act) : Int := (acts.filterMap Act.rates).getLast?.getD 31

theorem View.next_rate (f : File) (v : View) (a : Act) :
    (v.next f a).rate = a.rates.getD v.rate := by
  cases a with
  | rate buf =>
      unfold View.next Act.rates
      dsimp only
      cases (scanInt buf).join <;> rfl
  | write g buffer length left =>
      unfold View.next
      dsimp only
      split
      · rfl
      · split <;> rfl
  | read g left =>
      unfold View.next
      dsimp only
      split <;> rfl

theorem rate_foldl (f : File) (acts : List Act) :
    (acts.foldl (View.next f) ⟨0, 31, false, false⟩).rate = lastRate acts := by
  induction acts using List.reverseRecOn with
  | nil => rfl
  | append_singleton acts a ih =>
      rw [List.foldl_concat, View.next_rate, ih]
      unfold lastRate
      rw [List.filterMap_append]
      cases ha : a.rates with
      | none => rw [List.filterMap_cons_none ha, List.filterMap_nil, List.append_nil]; rfl
      | some n => rw [List.filterMap_cons_some ha, List.filterMap_nil, List.getLast?_concat]; rfl

/-- 100 times an amount wraps to the least `int` for the odd multiples of `2 ^ 29`. -/
theorem wrap_hundredfold_eq_min_iff (amount : Int) :
    wrap 32 (100 * amount) = -2 ^ 31 ↔ amount % 2 ^ 30 = 2 ^ 29 := by
  unfold wrap
  rw [Int.bmod_def]
  split <;> omega

/-- The rate and the amount let the division of `uah_to_eu` fault. -/
def Faulting (rate amount : Int) : Prop := rate = 0 ∨ rate = -1 ∧ amount % 2 ^ 30 = 2 ^ 29

theorem uah_to_eu_isSome_iff (s : State) :
    (uah_to_eu s).isSome ↔ ¬ Faulting s.current_exchange_rate s.uah.amount := by
  have hmin : wrap 32 (100 * s.uah.amount) = -2 ^ (32 - 1) ↔ s.uah.amount % 2 ^ 30 = 2 ^ 29 :=
    wrap_hundredfold_eq_min_iff s.uah.amount
  rw [uah_to_eu_eq, Option.isSome_map]
  unfold converted Faulting
  rw [divide_isSome_iff, hmin, and_comm]

/-- In every state reached, the division of a read is defined exactly if the rate text and the
    amount last taken do not let it fault. -/
theorem division_safe_iff {m : List UInt8} (hm : m.length = BUFFER_SIZE) {acts : List Act}
    {s : State} (hrun : run step (State.loaded m) acts = some s) :
    (uah_to_eu s).isSome ↔ ¬ Faulting (lastRate acts) (lastAmount .uah_to_eu acts) := by
  have hview := (view_run hm hrun).2 .uah_to_eu
  have hrate : s.current_exchange_rate = lastRate acts :=
    (congrArg View.rate hview).trans (rate_foldl .uah_to_eu acts)
  have hamount : s.uah.amount = lastAmount .uah_to_eu acts :=
    (congrArg View.amount hview).trans (view_foldl .uah_to_eu acts).1
  rw [uah_to_eu_isSome_iff, hrate, hamount]

/-- The rate "-1" and the amount "100". -/
theorem division_safe_iff_minus : ∃ s, run step (State.loaded (List.replicate 16 0))
      [.rate [45, 49, 0], .write .uah_to_eu (49 :: 48 :: 48 :: List.replicate 13 0) 3 0] =
        some s ∧ (uah_to_eu s).isSome := by
  obtain ⟨s, hs⟩ := Option.isSome_iff_exists.mp (by decide +kernel :
    (run step (State.loaded (List.replicate 16 0))
      [.rate [45, 49, 0],
        .write .uah_to_eu (49 :: 48 :: 48 :: List.replicate 13 0) 3 0]).isSome = true)
  refine ⟨s, hs, (division_safe_iff List.length_replicate hs).mpr ?_⟩
  unfold Faulting
  decide +kernel

/-- The rate "0". -/
theorem division_fault : ¬ ∀ (m : List UInt8) (acts : List Act) (s : State),
    m.length = BUFFER_SIZE → run step (State.loaded m) acts = some s → (uah_to_eu s).isSome := by
  intro h
  have hrun : run step (State.loaded (List.replicate 16 0)) [.rate [48, 0]] =
      some { State.loaded (List.replicate 16 0) with current_exchange_rate := 0 } := by
    decide +kernel
  have hsome := h _ _ _ List.length_replicate hrun
  revert hsome
  decide

/-! ## Exact results -/

/-- 100 times the number is an `int`. -/
def Scalable (n : Int) : Prop := -21474836 ≤ n ∧ n ≤ 21474836

theorem scalable_iff (n : Int) : Scalable n ↔ InRange 32 (100 * n) := by
  unfold Scalable InRange
  omega

/-- The two fields are the quotient of the integers, truncated toward zero. -/
def QuotientExact (amount rate : Int) (fields : Option (Int × Int)) : Prop :=
  ∃ l r, fields = some (l, r) ∧ 100 * l + r = (100 * amount).tdiv rate

/-- The two fields are the product of the integers. -/
def ProductExact (amount rate : Int) (fields : Int × Int) : Prop :=
  100 * fields.1 + fields.2 = 100 * amount * rate

theorem quotientExact_iff {amount rate : Int} (hrate : InRange 32 rate) (hpos : 0 < rate) :
    QuotientExact amount rate (Converter.uah_to_eu amount rate) ↔ Scalable amount := by
  have hfields : Converter.uah_to_eu amount rate =
      some (((wrap 32 (100 * amount)).tdiv rate).tdiv 100,
        ((wrap 32 (100 * amount)).tdiv rate).tmod 100) := by
    unfold Converter.uah_to_eu
    rw [divide_of_pos hpos]
    rfl
  rw [scalable_iff, ← tdiv_wrap_eq_iff (by decide) hpos hrate, hfields]
  constructor
  · rintro ⟨l, r, h, hexact⟩
    cases h
    rwa [Int.mul_tdiv_add_tmod] at hexact
  · exact fun h => ⟨_, _, rfl, (Int.mul_tdiv_add_tmod _ _).trans h⟩

theorem productExact_iff (amount rate : Int) :
    ProductExact amount rate (Converter.eu_to_uah amount rate) ↔ Scalable (amount * rate) := by
  unfold ProductExact Converter.eu_to_uah
  dsimp only
  rw [Int.mul_tdiv_add_tmod, wrap_wrap_mul, scalable_iff, ← Int.mul_assoc,
    wrap_eq_self_iff (by decide)]

/-- The fields that `uah_to_eu` sets, and those that `eu_to_uah` sets. -/
def State.euFields (s : State) : Int × Int := (s.eu.l, s.eu.r)

def State.uahFields (s : State) : Int × Int := (s.uah.l, s.uah.r)

/-- exchange.c computes what converter.c does. -/
theorem uah_to_eu_fields (s : State) : (uah_to_eu s).map State.euFields =
    Converter.uah_to_eu s.uah.amount s.current_exchange_rate := by
  unfold uah_to_eu Converter.uah_to_eu
  cases divide 32 (wrap 32 (100 * s.uah.amount)) s.current_exchange_rate <;> rfl

theorem eu_to_uah_fields (s : State) : (eu_to_uah s).uahFields =
    Converter.eu_to_uah s.eu.amount s.current_exchange_rate := rfl

/-- If the last result of a product by a positive factor fits, the first one does. -/
theorem scalable_of_mul {amount rate : Int} (hpos : 0 < rate) (h : Scalable (amount * rate)) :
    Scalable amount := by
  unfold Scalable at *
  have hle : amount.natAbs ≤ (amount * rate).natAbs := by
    rw [Int.natAbs_mul]
    exact Nat.le_mul_of_pos_right _ (by omega)
  omega

/-- The conversions of both modules at a positive rate are exact if and only if the amount, or
    its product with the rate, is scalable; and then no intermediate result overflows. -/
theorem conversions_exact_iff {rate : Int} (hrate : InRange 32 rate) (hpos : 0 < rate) :
    (∀ amount,
      (QuotientExact amount rate (Converter.uah_to_eu amount rate) ↔ Scalable amount) ∧
      (ProductExact amount rate (Converter.eu_to_uah amount rate) ↔ Scalable (amount * rate))) ∧
    (∀ s, s.current_exchange_rate = rate →
      (QuotientExact s.uah.amount rate ((uah_to_eu s).map State.euFields) ↔
        Scalable s.uah.amount) ∧
      (ProductExact s.eu.amount rate (eu_to_uah s).uahFields ↔ Scalable (s.eu.amount * rate))) ∧
    ∀ amount, (Scalable amount → InRange 32 (100 * amount)) ∧
      (Scalable (amount * rate) →
        InRange 32 (100 * amount) ∧ InRange 32 (100 * amount * rate)) := by
  refine ⟨fun amount => ⟨quotientExact_iff hrate hpos, productExact_iff amount rate⟩,
    fun s hs => ?_, fun amount => ⟨(scalable_iff amount).mp, fun h => ?_⟩⟩
  · subst hs
    rw [uah_to_eu_fields, eu_to_uah_fields]
    exact ⟨quotientExact_iff hrate hpos, productExact_iff _ _⟩
  · rw [Int.mul_assoc]
    exact ⟨(scalable_iff amount).mp (scalable_of_mul hpos h), (scalable_iff _).mp h⟩

/-- 1000 uah at the rate that is set when the module is loaded. -/
theorem conversions_exact_iff_loaded :
    QuotientExact 1000 Converter.exchange_rate
      (Converter.uah_to_eu 1000 Converter.exchange_rate) ↔ Scalable 1000 :=
  ((conversions_exact_iff (by decide : InRange 32 Converter.exchange_rate) (by decide)).1 1000).1

/-- The loaded module with the amount 21474837 in uah. -/
def largeAmount : State :=
  { State.loaded (List.replicate 16 0) with uah := ⟨21474837, 0, 0, false, true⟩ }

/-- The hundredfold wraps, and the quotient is negative. -/
theorem overflowed_amount : ¬ ∀ s : State, InRange 32 s.uah.amount → InRange 32 s.eu.amount →
    InRange 32 s.current_exchange_rate → 0 < s.current_exchange_rate →
    QuotientExact s.uah.amount s.current_exchange_rate ((uah_to_eu s).map State.euFields) ∧
    ProductExact s.eu.amount s.current_exchange_rate (eu_to_uah s).uahFields := by
  intro h
  obtain ⟨l, r, hfields, hexact⟩ :=
    (h largeAmount (by decide) (by decide) (by decide) (by decide)).1
  have hwrapped : (uah_to_eu largeAmount).map State.euFields = some (-692736, -64) := by decide
  rw [hwrapped] at hfields
  cases hfields
  revert hexact
  decide

end KernelBasecamp.Currency
