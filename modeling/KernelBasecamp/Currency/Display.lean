/-
  The text of a converted amount: whether it denotes the amount, and whether it fits the buffer.

  "%d.%d" prints the hundredths without a leading zero and with a sign of their own. So 105
  hundredths print as "1.5", which denotes 150, and no decimal number at all is printed for an
  amount below zero unless it is whole.

  * `printed_iff`: the text of `n` hundredths denotes them exactly when the remainder is 0 or at
    least 10, and two amounts share a text value exactly when they are `Confused`.
  * `text_fits_run`: in every state reached, and behind the conversion of the next read, the text
    with its terminator fits the buffer, for both files.
-/
import Mathlib
import KernelBasecamp.Currency.Files
import KernelBasecamp.Lib.DecimalPoint

namespace KernelBasecamp.Currency

open Lib Lib.CInt Lib.CMem Lib.Decimal Lib.Sscanf

/-! ## What the text denotes -/

/-- The amount that the text printed for `n` hundredths denotes, read as a decimal number in
    front of the newline. -/
def printed (n : Int) : Option ℚ := decimalValue (hundredthsText n).dropLast

/-- The same in hundredths: a remainder of one digit counts as tenths. -/
def shown (n : Int) : Option Int :=
  if n.tmod 100 < 0 then none
  else some (if n.tmod 100 < 10 then 100 * n.tdiv 100 + 10 * n.tmod 100 else n)

theorem length_remainder {r : Int} (hlo : 0 ≤ r) (hhi : r < 100) :
    (natText r.natAbs).length = if r < 10 then 1 else 2 := by
  split
  · exact length_natText_digit (by omega)
  · exact length_natText (k := 1) (by omega) (by omega)

theorem tmod_nonpos {n : Int} (b : Int) (hn : n < 0) : n.tmod b ≤ 0 := by
  have h := Int.tmod_nonneg b (show 0 ≤ -n by omega)
  rw [Int.neg_tmod] at h
  omega

theorem printed_eq (n : Int) : printed n = (shown n).map fun h : Int => (h : ℚ) / 100 := by
  have hsplit := Int.mul_tdiv_add_tmod n 100
  have hlt := Int.tmod_lt_of_pos n (by decide : (0 : Int) < 100)
  have hsign : n < 0 → n.tmod 100 ≤ 0 := tmod_nonpos 100
  have htext : (hundredthsText n).dropLast =
      intText (n.tdiv 100) ++ 46 :: intText (n.tmod 100) := by
    unfold hundredthsText amountText
    rw [List.dropLast_concat, List.append_assoc]
    rfl
  unfold printed shown
  rw [htext, decimalValue_intText]
  split
  · rfl
  · next hr =>
      have hr := Int.not_lt.mp hr
      rw [length_remainder hr hlt, Option.map_some]
      congr 1
      generalize n.tdiv 100 = l at hsplit ⊢
      generalize n.tmod 100 = r at hsplit hr hlt hsign ⊢
      -- the sign is that of `l`, and below zero there is no remainder
      have hl : (if l < 0 then -1 else 1 : ℚ) * l.natAbs = (l : Int) := by
        split
        · rw [neg_one_mul, ← Int.cast_natCast, Int.ofNat_natAbs_of_nonpos (by omega), Int.cast_neg,
            neg_neg]
        · rw [one_mul, ← Int.cast_natCast, Int.natAbs_of_nonneg (by omega)]
      have hr' : (if l < 0 then -1 else 1 : ℚ) * r.natAbs = (r : Int) := by
        split
        · obtain rfl : r = 0 := by omega
          simp
        · rw [one_mul, ← Int.cast_natCast, Int.natAbs_of_nonneg hr]
      rw [mul_add, ← mul_div_assoc, hl, hr']
      split
      · push_cast
        field_simp
        ring
      · rw [← hsplit]
        push_cast
        field_simp
        ring

theorem shown_eq_some_iff (n : Int) :
    shown n = some n ↔ n.tmod 100 = 0 ∨ 10 ≤ n.tmod 100 := by
  have hsplit := Int.mul_tdiv_add_tmod n 100
  unfold shown
  split
  · exact iff_of_false (by simp) (by omega)
  · rw [Option.some.injEq]
    split <;> omega

/-- One of the amounts has in hundredths what the other one has in tenths. -/
def Confused (n m : Int) : Prop :=
  ∃ q d, 0 ≤ q ∧ 1 ≤ d ∧ d ≤ 9 ∧
    (n = 100 * q + d ∧ m = 100 * q + 10 * d ∨ m = 100 * q + d ∧ n = 100 * q + 10 * d)

theorem shown_cases {n h : Int} (hn : shown n = some h) :
    ∃ l r, n = 100 * l + r ∧ 0 ≤ r ∧ r < 100 ∧ (l < 0 → r = 0) ∧
      h = if r < 10 then 100 * l + 10 * r else n := by
  have hsplit := Int.mul_tdiv_add_tmod n 100
  have hlt := Int.tmod_lt_of_pos n (by decide : (0 : Int) < 100)
  have hsign : n < 0 → n.tmod 100 ≤ 0 := tmod_nonpos 100
  unfold shown at hn
  split at hn
  · cases hn
  · cases hn
    exact ⟨n.tdiv 100, n.tmod 100, hsplit.symm, by omega, hlt, by omega, rfl⟩

theorem shown_of_nonneg {l r : Int} (hl : 0 ≤ l) (hr : 0 ≤ r ∧ r < 100) :
    shown (100 * l + r) = some (if r < 10 then 100 * l + 10 * r else 100 * l + r) := by
  have hq : (100 * l + r).tdiv 100 = l := by
    rw [Int.tdiv_eq_ediv_of_nonneg (by omega)]
    omega
  have hm : (100 * l + r).tmod 100 = r := by
    rw [Int.tmod_eq_emod_of_nonneg (by omega)]
    omega
  unfold shown
  rw [hq, hm, if_neg (by omega)]

theorem confused_iff (n m : Int) :
    (n ≠ m ∧ ∃ h, shown n = some h ∧ shown m = some h) ↔ Confused n m := by
  constructor
  · rintro ⟨hne, h, hn, hm⟩
    obtain ⟨l, r, hl, hr, hlt, hzero, hh⟩ := shown_cases hn
    obtain ⟨l', r', hl', hr', hlt', hzero', hh'⟩ := shown_cases hm
    -- of two remainders with the same number of digits both would be equal
    by_cases hone : r < 10
    · rw [if_pos hone] at hh
      by_cases hone' : r' < 10
      · rw [if_pos hone'] at hh'
        omega
      · rw [if_neg hone'] at hh'
        exact ⟨l, r, by omega, by omega, by omega, .inl (by omega)⟩
    · rw [if_neg hone] at hh
      by_cases hone' : r' < 10
      · rw [if_pos hone'] at hh'
        exact ⟨l', r', by omega, by omega, by omega, .inr (by omega)⟩
      · rw [if_neg hone'] at hh'
        omega
  · rintro ⟨q, d, hq, hlo, hhi, hpair⟩
    have htenths : shown (100 * q + 10 * d) = some (100 * q + 10 * d) := by
      rw [shown_of_nonneg hq (by omega), if_neg (by omega)]
    have hhundredths : shown (100 * q + d) = some (100 * q + 10 * d) := by
      rw [shown_of_nonneg hq (by omega), if_pos (by omega)]
    rcases hpair with ⟨rfl, rfl⟩ | ⟨rfl, rfl⟩
    · exact ⟨by omega, _, hhundredths, htenths⟩
    · exact ⟨by omega, _, htenths, hhundredths⟩

theorem printed_eq_some_iff (n : Int) (h : Int) :
    printed n = some ((h : ℚ) / 100) ↔ shown n = some h := by
  have hcent : (100 : ℚ) ≠ 0 := by decide
  rw [printed_eq, Option.map_eq_some_iff]
  constructor
  · rintro ⟨k, hk, heq⟩
    rw [hk, Int.cast_injective ((div_left_inj' hcent).mp heq)]
  · exact fun hn => ⟨h, hn, rfl⟩

/-- The text of `n` hundredths denotes them exactly when the remainder is 0 or has two digits
    and no sign; and two different amounts have texts that denote the same exactly when one has
    in hundredths what the other has in tenths. -/
theorem printed_iff (n m : Int) :
    (printed n = some ((n : ℚ) / 100) ↔ n.tmod 100 = 0 ∨ 10 ≤ n.tmod 100) ∧
    ((n ≠ m ∧ ∃ x, printed n = some x ∧ printed m = some x) ↔ Confused n m) := by
  refine ⟨(printed_eq_some_iff n n).trans (shown_eq_some_iff n), ?_⟩
  rw [← confused_iff]
  refine and_congr_right fun _ => ⟨?_, ?_⟩
  · rintro ⟨x, hn, hm⟩
    rw [printed_eq] at hn
    obtain ⟨h, hshown, rfl⟩ := Option.map_eq_some_iff.mp hn
    exact ⟨h, hshown, (printed_eq_some_iff m h).mp hm⟩
  · rintro ⟨h, hn, hm⟩
    exact ⟨_, (printed_eq_some_iff n h).mpr hn, (printed_eq_some_iff m h).mpr hm⟩

/-- 105 hundredths are printed as "1.5", and 150 as "1.50". -/
theorem tenths_for_hundredths :
    ¬ (∀ n : Int, InRange 32 n → printed n = some ((n : ℚ) / 100)) ∧
    ¬ ∀ (n m : Int) (x : ℚ), InRange 32 n → InRange 32 m → printed n = some x →
      printed m = some x → n = m := by
  have hfive : printed 105 = some (((150 : Int) : ℚ) / 100) :=
    (printed_eq_some_iff 105 150).mpr (by decide)
  have hfifty : printed 150 = some (((150 : Int) : ℚ) / 100) :=
    (printed_eq_some_iff 150 150).mpr (by decide)
  constructor
  · intro h
    have hshown := (printed_eq_some_iff 105 105).mp (h 105 (by decide))
    revert hshown
    decide
  · intro h
    have heq := h 105 150 _ (by decide) (by decide) hfive hfifty
    revert heq
    decide

/-! ## The room for the text -/

/-- The digits of a record are an amount of hundredths of `int` size, taken apart. -/
def CurrencyT.Split (c : CurrencyT) : Prop :=
  ∃ n : Int, n.natAbs ≤ 2 ^ 31 ∧ c.l = n.tdiv 100 ∧ c.r = n.tmod 100

/-- What `exchange_read` prints for a record, with the terminator. -/
def CurrencyT.text (c : CurrencyT) : List UInt8 := amountText c.l c.r ++ [0]

theorem CurrencyT.Split.length_text {c : CurrencyT} (h : c.Split) :
    c.text.length ≤ BUFFER_SIZE := by
  obtain ⟨n, hn, hl, hr⟩ := h
  unfold CurrencyT.text
  rw [hl, hr, List.length_append]
  exact length_hundredthsText hn

def State.Split (s : State) : Prop := ∀ p, (s.get p).Split

/-- The record that holds the digits of a file's result. -/
def File.target : File → Ptr
  | .uah_to_eu => .eu
  | .eu_to_uah => .uah

/-- The conversion that a read of the file begins with. -/
def convert : File → State → Option State
  | .uah_to_eu, s => uah_to_eu s
  | .eu_to_uah, s => some (eu_to_uah s)

theorem proc_read_eq_bind (f : File) (s : State) (left : Nat) :
    proc_read f s left =
      (convert f s).bind fun t => exchange_read t left f.source f.target := by
  cases f <;> rfl

theorem State.Split.convert {f : File} {s t : State} (h : s.Split) (ht : convert f s = some t) :
    t.Split ∧ t.proc_buffer = s.proc_buffer := by
  cases f with
  | uah_to_eu =>
      change uah_to_eu s = some t at ht
      rw [uah_to_eu_eq] at ht
      obtain ⟨n, hn, rfl⟩ := Option.map_eq_some_iff.mp ht
      refine ⟨fun p => ?_, rfl⟩
      cases p with
      | uah => exact h .uah
      | eu => exact ⟨n, natAbs_converted hn, rfl, rfl⟩
  | eu_to_uah =>
      cases ht
      refine ⟨fun p => ?_, rfl⟩
      cases p with
      | uah => exact ⟨_, natAbs_converted (f := .eu_to_uah) rfl, rfl, rfl⟩
      | eu => exact h .eu

/-- A record written back with its digits unchanged. -/
theorem State.Split.set {s : State} (h : s.Split) {p : Ptr} {c : CurrencyT}
    (hl : c.l = (s.get p).l) (hr : c.r = (s.get p).r) (m : List UInt8) :
    State.Split { s.set p c with proc_buffer := m } := by
  intro q
  rw [State.get_buffer]
  by_cases hq : q = p
  · obtain ⟨n, hn, hln, hrn⟩ := h p
    subst hq
    rw [State.get_set]
    exact ⟨n, hn, hl.trans hln, hr.trans hrn⟩
  · rw [State.get_set_of_ne s hq]
    exact h q

theorem split_step {s s' : State} {a : Act} (hbuf : s.proc_buffer.length = BUFFER_SIZE)
    (h : s.Split) (hs : step s a = some s') : s'.Split := by
  cases a with
  | rate buf =>
      obtain ⟨scanned, _, hs⟩ := Option.bind_eq_some_iff.mp hs
      intro p
      cases scanned <;> cases hs <;> cases p
      · exact h .uah
      · exact h .eu
      · exact h .uah
      · exact h .eu
  | write f buffer length left =>
      obtain ⟨⟨t, n⟩, hwrite, rfl⟩ := Option.map_eq_some_iff.mp hs
      have hwrite : exchange_write s buffer length left f.source = some (t, n) := by
        cases f <;> exact hwrite
      obtain ⟨m, -, rfl⟩ := exchange_write_cases hbuf hwrite
      refine h.set ?_ ?_ m <;> unfold CurrencyT.afterWrite <;> split <;> rfl
  | read f left =>
      obtain ⟨⟨t, n, bytes⟩, hread, rfl⟩ := Option.map_eq_some_iff.mp hs
      rw [proc_read_eq_bind] at hread
      obtain ⟨u, hu, hread⟩ := Option.bind_eq_some_iff.mp hread
      obtain ⟨m, -, rfl⟩ := exchange_read_cases hread
      exact (h.convert hu).1.set (c := (u.get f.source).afterRead) rfl rfl m

theorem split_run {m : List UInt8} (hm : m.length = BUFFER_SIZE) {acts : List Act} {s : State}
    (hrun : run step (State.loaded m) acts = some s) :
    s.proc_buffer.length = BUFFER_SIZE ∧ s.Split := by
  have hinit : (State.loaded m).Split := fun p => by
    cases p <;> exact ⟨0, Nat.zero_le _, rfl, rfl⟩
  exact run_invariant (fun s => s.proc_buffer.length = BUFFER_SIZE ∧ s.Split) ⟨hm, hinit⟩
    (fun _ _ _ h hs => ⟨(view_step h.1 hs .uah_to_eu).1, split_step h.1 h.2 hs⟩) hrun

/-- In every state reached, the text of either record with its terminator fits the buffer; and
    so does the one that a read of either file prints behind its conversion, which is therefore
    written. -/
theorem text_fits_run {m : List UInt8} (hm : m.length = BUFFER_SIZE) {acts : List Act}
    {s : State} (hrun : run step (State.loaded m) acts = some s) :
    (∀ p, (s.get p).text.length ≤ BUFFER_SIZE) ∧
    ∀ f t, convert f s = some t → (t.get f.target).text.length ≤ BUFFER_SIZE ∧
      (storeBytes t.proc_buffer 0 (t.get f.target).text).isSome := by
  obtain ⟨hbuf, hsplit⟩ := split_run hm hrun
  refine ⟨fun p => (hsplit p).length_text, fun f t ht => ?_⟩
  obtain ⟨hsplit', hbuf'⟩ := hsplit.convert ht
  have hfits := (hsplit' f.target).length_text
  refine ⟨hfits, Option.isSome_iff_exists.mpr (storeBytes_of_le ?_)⟩
  rw [hbuf', hbuf, Nat.zero_add]
  exact hfits

/-- The rate "-7", the amount "-2147483648" and a read of each file. -/
def negativeActs : List Act :=
  [.rate [45, 55, 0],
    .write .uah_to_eu ([45, 50, 49, 52, 55, 52, 56, 51, 54, 52, 56] ++ List.replicate 5 0) 11 0,
    .read .uah_to_eu 0, .read .eu_to_uah 0]

theorem text_fits_run_negative :
    ∃ s, run step (State.loaded (List.replicate 16 0)) negativeActs = some s ∧
      ∀ p, (s.get p).text.length ≤ BUFFER_SIZE := by
  obtain ⟨s, hs⟩ := Option.isSome_iff_exists.mp (by decide +kernel :
    (run step (State.loaded (List.replicate 16 0)) negativeActs).isSome = true)
  exact ⟨s, hs, (text_fits_run List.length_replicate hs).1⟩

end KernelBasecamp.Currency
