/-
  What the amount set by a write depends on.

  `exchange_write` copies BUFFER_SIZE bytes whatever the length of the write and sets no
  terminator, so `sscanf` goes on into the bytes behind those written. Two user memories are
  `w ++ x` and `w ++ x'`: they agree on the bytes `w` written, and what lies behind differs in
  bytes and in how much of it can be copied.

  * `written_iff`: the amount is the same for all of these exactly when `w` fills the buffer or
    is `Decided`; and the value returned is between 0 and the length exactly when no more bytes
    are left uncopied than the write is long and the difference is an `ssize_t`.
-/
import KernelBasecamp.Currency.Exchange

namespace KernelBasecamp.Currency

open Lib.CInt Lib.CMem Lib.Sscanf

/-- An answer that `copy_from_user` can give for BUFFER_SIZE bytes of the memory. -/
def Uncopied (buffer : List UInt8) (left : Nat) : Prop :=
  left ≤ BUFFER_SIZE ∧ BUFFER_SIZE - left ≤ buffer.length

/-- `from->amount` after a write. -/
def amountAfter (s : State) (src : Ptr) (buffer : List UInt8) (length left : Nat) : Option Int :=
  (exchange_write s buffer length left src).map fun r => (r.1.get src).amount

/-- The amount is the same whatever follows the bytes `w` written, and however much of that is
    copied. Both copies get the same part of `w`. -/
def DependsOnWritten (s : State) (src : Ptr) (w : List UInt8) : Prop :=
  ∀ x x' left left', Uncopied (w ++ x) left → Uncopied (w ++ x') left' →
    min (BUFFER_SIZE - left) w.length = min (BUFFER_SIZE - left') w.length →
    amountAfter s src (w ++ x) w.length left = amountAfter s src (w ++ x') w.length left'

/-- Behind white space and a minus, `w` has a byte that is no digit. -/
def Decided (w : List UInt8) : Prop := ¬ ∀ c ∈ numeral w, isdigit c

/-! ## One write -/

/-- The bytes that the copy leaves in `proc_buffer`. -/
def copied (buffer : List UInt8) (left : Nat) : List UInt8 :=
  buffer.take (BUFFER_SIZE - left) ++ List.replicate left 0

/-- The amount that a conversion leaves. -/
def amountOf (amount : Int) : Option (Int × List UInt8) → Int
  | none => amount
  | some (n, _) => wrap 32 n

theorem copy_from_user_eq {buffer : List UInt8} {left : Nat} (h : Uncopied buffer left) :
    copy_from_user buffer BUFFER_SIZE left = some (copied buffer left) := if_pos h

theorem amountAfter_eq {s : State} {src : Ptr} (hflag : (s.get src).write = false)
    {buffer : List UInt8} {left : Nat} (h : Uncopied buffer left) (length : Nat) :
    amountAfter s src buffer length left =
      (scanInt (copied buffer left)).map (amountOf (s.get src).amount) := by
  unfold amountAfter exchange_write
  dsimp only
  rw [hflag, if_neg Bool.false_ne_true, copy_from_user_eq h, Option.bind_eq_bind,
    Option.bind_some]
  cases scanInt (copied buffer left) with
  | none => rfl
  | some scanned =>
      rw [Option.bind_eq_bind, Option.bind_some, Option.map_some, Option.map_some,
        State.get_buffer, State.get_set]
      cases scanned <;> rfl

/-- A copy that gets all of `w` leaves it at the head of the buffer. -/
theorem copied_append {w x : List UInt8} {left : Nat} (h : w.length ≤ BUFFER_SIZE - left) :
    ∃ rest, copied (w ++ x) left = w ++ rest := by
  unfold copied
  rw [List.take_append, List.take_of_length_le h, List.append_assoc]
  exact ⟨_, rfl⟩

theorem copied_exact {w x : List UInt8} (h : (w ++ x).length = BUFFER_SIZE) :
    Uncopied (w ++ x) 0 ∧ copied (w ++ x) 0 = w ++ x := by
  refine ⟨⟨Nat.zero_le _, Nat.le_of_eq h.symm⟩, ?_⟩
  unfold copied
  rw [Nat.sub_zero, ← h, List.take_length, List.replicate_zero, List.append_nil]

/-- Numbers that differ by 1 are wrapped to different ones. -/
theorem wrap_signed_ne (minus : Bool) (n : Nat) :
    wrap 32 (signed minus (n + 1)) ≠ wrap 32 (signed minus (n + 2)) := by
  obtain ⟨k, hk⟩ := wrap_eq_sub 32 (signed minus (n + 1))
  obtain ⟨j, hj⟩ := wrap_eq_sub 32 (signed minus (n + 2))
  rw [hk, hj]
  unfold signed
  cases minus <;> simp only [if_true, if_false, Bool.false_eq_true] <;> omega

section

variable {s : State} {src : Ptr} {w : List UInt8}

/-- A digit behind `w` continues the number, and two digits give two amounts. -/
theorem not_depends_of_room (hflag : (s.get src).write = false) (hall : ∀ c ∈ numeral w, isdigit c)
    (hroom : w.length + 1 < BUFFER_SIZE) : ¬ DependsOnWritten s src w := by
  intro h
  let tail (d : UInt8) := d :: 0 :: List.replicate (BUFFER_SIZE - 2 - w.length) 0
  have htail : ∀ d, (w ++ tail d).length = BUFFER_SIZE := fun d => by
    simp [tail]
    omega
  have hamount : ∀ d, isdigit d = true →
      amountAfter s src (w ++ tail d) w.length 0 = some (wrap 32 (signed (negative w)
        (10 * digitsValue (numeral w) + (d.toNat - 48)))) := fun d hd => by
    rw [amountAfter_eq hflag (copied_exact (htail d)).1, (copied_exact (htail d)).2,
      scanInt_continued hall hd (by decide)]
    rfl
  have hsame := h (tail 49) (tail 50) 0 0 (copied_exact (htail 49)).1 (copied_exact (htail 50)).1
    rfl
  rw [hamount 49 (by decide), hamount 50 (by decide)] at hsame
  exact wrap_signed_ne _ _ (Option.some.inj hsame)

/-- When one byte of the buffer is left behind `w`: with a digit there the number runs out of the
    buffer, and with a zero it ends. -/
theorem not_depends_of_last (hflag : (s.get src).write = false) (hall : ∀ c ∈ numeral w, isdigit c)
    (hlast : w.length + 1 = BUFFER_SIZE) : ¬ DependsOnWritten s src w := by
  intro h
  have hone : ∀ d : UInt8, (w ++ [d]).length = BUFFER_SIZE := fun d => by
    rw [List.length_append]
    exact hlast
  have hsame := h [49] [0] 0 0 (copied_exact (hone 49)).1 (copied_exact (hone 0)).1 rfl
  have hdigit : scanInt (w ++ [49]) = none := by
    rw [scanInt_eq_none_iff, (numeral_append_cons w (by decide) []).2]
    intro c hc
    rcases List.mem_append.mp hc with hc | hc
    · exact hall c hc
    · rw [List.mem_singleton.mp hc]
      decide
  have hzero : scanInt (w ++ [0]) ≠ none := by
    rw [Ne, scanInt_eq_none_iff, (numeral_append_cons w (by decide) []).2]
    intro hdigits
    have h0 := hdigits 0 (List.mem_append_right _ List.mem_cons_self)
    revert h0
    decide
  rw [amountAfter_eq hflag (copied_exact (hone 49)).1,
    amountAfter_eq hflag (copied_exact (hone 0)).1, (copied_exact (hone 49)).2,
    (copied_exact (hone 0)).2, hdigit, Option.map_none] at hsame
  exact hzero (Option.map_eq_none_iff.mp hsame.symm)

/-- Copies that end within `w` end at the same byte. -/
theorem copied_same {x x' : List UInt8} {left left' : Nat} (hx : Uncopied (w ++ x) left)
    (hx' : Uncopied (w ++ x') left')
    (hpart : min (BUFFER_SIZE - left) w.length = min (BUFFER_SIZE - left') w.length)
    (hcut : BUFFER_SIZE - left < w.length ∨ BUFFER_SIZE ≤ w.length) :
    copied (w ++ x) left = copied (w ++ x') left' := by
  have hle := hx.1
  have hle' := hx'.1
  obtain rfl : left = left' := by omega
  unfold copied
  rw [List.take_append_of_le_length (by omega), List.take_append_of_le_length (by omega)]

theorem dependsOnWritten_iff (hflag : (s.get src).write = false) (w : List UInt8) :
    DependsOnWritten s src w ↔ BUFFER_SIZE ≤ w.length ∨ Decided w := by
  constructor
  · intro h
    by_contra hcon
    rw [not_or, Nat.not_le] at hcon
    obtain ⟨hshort, hundecided⟩ := hcon
    have hall : ∀ c ∈ numeral w, isdigit c := not_not.mp hundecided
    rcases Nat.lt_or_eq_of_le (Nat.succ_le_of_lt hshort) with hroom | hlast
    · exact not_depends_of_room hflag hall hroom h
    · exact not_depends_of_last hflag hall hlast h
  · intro h x x' left left' hx hx' hpart
    rw [amountAfter_eq hflag hx, amountAfter_eq hflag hx']
    by_cases hcut : BUFFER_SIZE - left < w.length ∨ BUFFER_SIZE ≤ w.length
    · rw [copied_same hx hx' hpart hcut]
    · -- both get all of `w`, and the conversion ends in it
      rw [not_or, Nat.not_lt] at hcut
      obtain ⟨rest, hrest⟩ := copied_append (x := x) hcut.1
      have hcopied' : w.length ≤ BUFFER_SIZE - left' := by omega
      obtain ⟨rest', hrest'⟩ := copied_append (x := x') hcopied'
      obtain ⟨r, hr⟩ := Option.ne_none_iff_exists'.mp fun hnone =>
        h.resolve_left hcut.2 (scanInt_eq_none_iff.mp hnone)
      rw [hrest, hrest', scanInt_append hr, scanInt_append hr]
      cases r <;> rfl

end

theorem exchange_write_value {s s' : State} {src : Ptr} (hflag : (s.get src).write = false)
    {buffer : List UInt8} {length left n : Nat}
    (h : exchange_write s buffer length left src = some (s', n)) :
    left ≤ BUFFER_SIZE ∧ n = size_sub length left := by
  unfold exchange_write at h
  dsimp only at h
  rw [hflag, if_neg Bool.false_ne_true] at h
  obtain ⟨m, hm, h⟩ := Option.bind_eq_some_iff.mp h
  obtain ⟨scanned, _, h⟩ := Option.bind_eq_some_iff.mp h
  cases h
  exact ⟨(copy_from_user_length hm).1, rfl⟩

/-- The difference of two sizes as an `ssize_t`. -/
theorem size_sub_between_iff {length left : Nat} (hlength : length < 2 ^ 64)
    (hleft : left ≤ 2 ^ 63) :
    (0 ≤ wrap 64 (size_sub length left) ∧ wrap 64 (size_sub length left) ≤ length) ↔
      left ≤ length ∧ length < left + 2 ^ 63 := by
  unfold size_sub wrap
  rw [Int.bmod_def]
  split <;> omega

/-- With the write flag clear: the amount depends only on the bytes `w` written exactly when they
    fill the buffer or decide the number; and the value returned lies between 0 and the length
    exactly when the length is not exceeded by what is left uncopied. -/
theorem written_iff {s : State} {src : Ptr} (hflag : (s.get src).write = false) :
    (∀ w, DependsOnWritten s src w ↔ BUFFER_SIZE ≤ w.length ∨ Decided w) ∧
    ∀ buffer length left s' n, length < 2 ^ 64 →
      exchange_write s buffer length left src = some (s', n) →
      ((0 ≤ wrap 64 n ∧ wrap 64 n ≤ length) ↔ left ≤ length ∧ length < left + 2 ^ 63) := by
  refine ⟨dependsOnWritten_iff hflag, fun buffer length left s' n hlength h => ?_⟩
  obtain ⟨hleft, rfl⟩ := exchange_write_value hflag h
  exact size_sub_between_iff hlength (hleft.trans (by decide))

/-- "5\n", written after the module is loaded. -/
theorem written_iff_line : DependsOnWritten (State.loaded (List.replicate 16 0)) .uah [53, 10] := by
  refine ((written_iff (rfl :
    ((State.loaded (List.replicate 16 0)).get .uah).write = false)).1 [53, 10]).mpr (.inr ?_)
  have hstop : 10 ∈ numeral [53, 10] := by decide
  exact fun h => absurd (h 10 hstop) (by decide)

/-- "12" with a "3" behind it and without; and the single byte "5" at the end of the memory. -/
theorem digit_behind :
    ¬ (∀ (s : State) (src : Ptr) (w : List UInt8), (s.get src).write = false →
      w.length ≤ BUFFER_SIZE → DependsOnWritten s src w) ∧
    ¬ ∀ (s s' : State) (src : Ptr) (buffer : List UInt8) (length left n : Nat),
      (s.get src).write = false → length < 2 ^ 64 →
      exchange_write s buffer length left src = some (s', n) →
      0 ≤ wrap 64 n ∧ wrap 64 n ≤ length := by
  constructor
  · intro h
    have hwith : amountAfter (State.loaded (List.replicate 16 0)) .uah
        ([49, 50] ++ 51 :: List.replicate 13 0) 2 0 = some 123 := by decide +kernel
    have hwithout : amountAfter (State.loaded (List.replicate 16 0)) .uah
        ([49, 50] ++ List.replicate 14 0) 2 0 = some 12 := by decide +kernel
    have hsame := h (State.loaded (List.replicate 16 0)) .uah [49, 50] rfl (by decide)
      (51 :: List.replicate 13 0) (List.replicate 14 0) 0 0 ⟨by decide, by decide⟩
      ⟨by decide, by decide⟩ rfl
    have heq := hwith.symm.trans (hsame.trans hwithout)
    revert heq
    decide
  · intro h
    obtain ⟨⟨s', n⟩, hwrite⟩ := Option.isSome_iff_exists.mp (by decide +kernel :
      (exchange_write (State.loaded (List.replicate 16 0)) [53] 1 15 .uah).isSome = true)
    have hbetween := h _ _ _ _ _ _ _ rfl (by decide) hwrite
    obtain ⟨-, rfl⟩ := exchange_write_value rfl hwrite
    have hle := (size_sub_between_iff (by decide) (by decide)).mp hbetween
    omega

end KernelBasecamp.Currency
