/-
  Whether a reminder says what was written.

  For a proper line `recorder_store` copies exactly the bytes of the message into memory that
  `kmalloc` has not cleared. The message therefore goes on with what was there before, unless
  the first of these bytes happens to be zero.

  * `recorded_iff`: the call records user, message and time as written exactly when the byte
    behind the message was zero and the trigger time is one of `ktime_t`.
-/
import KernelBasecamp.Reminders.Delivery
import KernelBasecamp.Reminders.Lines

namespace KernelBasecamp.Reminders

open Lib Lib.CInt Lib.CMem Lib.Sscanf

/-- The text of a decimal number. -/
def Denotes (number : List UInt8) (t : Int) : Prop :=
  ∃ minus digits, number = (if minus then [45] else []) ++ digits ∧ digits ≠ [] ∧
    (∀ c ∈ digits, isdigit c) ∧ t = signed minus (digitsValue digits)

/-- The line "user t message". -/
def lineText (user number message : List UInt8) : List UInt8 :=
  user ++ 32 :: (number ++ 32 :: (message ++ [10]))

/-- The parts of a line as the module's test writes it. -/
structure Proper (user number message : List UInt8) (t : Int) : Prop where
  user : user ≠ [] ∧ user.length < USER_LENGTH ∧ 0 ∉ user ∧ ∀ c ∈ user, isspace c = false
  number : Denotes number t ∧ InRange 64 t
  message : message.length < MESSAGE_LENGTH ∧ 0 ∉ message ∧ 10 ∉ message

/-- The call adds one reminder with these strings and this trigger time, and leaves the other
    ones alone. -/
def Records (ktime_get : Nat → Int) (s : State) (buf : List UInt8) (count : Nat)
    (old user message : List UInt8) (trigger_time : Int) : Prop :=
  ∃ s' r as bs, recorder_store ktime_get s buf count old = some (s', some r) ∧
    s.reminders = as ++ bs ∧ s'.reminders = as ++ r :: bs ∧ s'.delivered = s.delivered ∧
    cString r.user = some user ∧ cString r.message = some message ∧
    r.trigger_time = trigger_time

/-! ## The parts of a proper line -/

/-- A number is read from its minus or its first digit on, which are no blanks. -/
theorem Denotes.scan {number : List UInt8} {t : Int} (h : Denotes number t)
    (rest : List UInt8) :
    ∃ minus digits, negative (number ++ rest) = minus ∧ numeral (number ++ rest) = digits ++ rest ∧
      digits ≠ [] ∧ (∀ e ∈ digits, isdigit e) ∧ t = signed minus (digitsValue digits) := by
  obtain ⟨minus, digits, rfl, hne, hall, ht⟩ := h
  refine ⟨minus, digits, ?_⟩
  suffices hscan : negative ((if minus then [45] else []) ++ digits ++ rest) = minus ∧
      numeral ((if minus then [45] else []) ++ digits ++ rest) = digits ++ rest from
    ⟨hscan.1, hscan.2, hne, hall, ht⟩
  obtain ⟨e, es, rfl⟩ := List.exists_cons_of_ne_nil hne
  obtain ⟨hblank, hminus⟩ := not_isspace_of_isdigit (hall e List.mem_cons_self)
  unfold numeral negative
  cases minus with
  | true => exact ⟨rfl, rfl⟩
  | false =>
      have hdrop : (e :: (es ++ rest)).dropWhile isspace = e :: (es ++ rest) :=
        List.dropWhile_cons_of_neg (by rw [hblank]; exact Bool.false_ne_true)
      have hhead : ((e :: (es ++ rest)).head? == some 45) = false :=
        beq_eq_false_iff_ne.mpr fun h => hminus (Option.some.inj h)
      have hplain : (if false = true then [45] else []) ++ e :: es ++ rest = e :: (es ++ rest) :=
        rfl
      rw [hplain, hdrop, hhead]
      exact ⟨rfl, rfl⟩

theorem Denotes.not_mem {number : List UInt8} {t : Int} (h : Denotes number t) {c : UInt8}
    (hc : isdigit c = false) (hminus : c ≠ 45) : c ∉ number := by
  obtain ⟨minus, digits, rfl, -, hall, -⟩ := h
  intro hmem
  rcases List.mem_append.mp hmem with hsign | hdigit
  · cases minus with
    | true => exact hminus (List.mem_singleton.mp hsign)
    | false => cases hsign
  · rw [hall c hdigit] at hc
    cases hc

namespace Proper

variable {user number message : List UInt8} {t : Int}

theorem nul_not_mem (h : Proper user number message t) : 0 ∉ lineText user number message := by
  have hnumber := h.number.1.not_mem (c := 0) (by decide) (by decide)
  have huser := h.user.2.2.1
  have hmessage := h.message.2.1
  simp [lineText, huser, hnumber, hmessage]

theorem word_eq (h : Proper user number message t) :
    word (lineText user number message) = user ∧
    behindWord (lineText user number message) = 32 :: (number ++ 32 :: (message ++ [10])) := by
  obtain ⟨hne, -, -, hplain⟩ := h.user
  have hdrop : (lineText user number message).dropWhile isspace =
      lineText user number message := by
    obtain ⟨c, cs, rfl⟩ := List.exists_cons_of_ne_nil hne
    exact List.dropWhile_cons_of_neg (by rw [hplain c List.mem_cons_self]; exact Bool.false_ne_true)
  have hall : ∀ c ∈ user, (!isspace c) = true := fun c hc => by rw [hplain c hc]; rfl
  unfold word behindWord
  rw [hdrop]
  unfold lineText
  rw [takeWhile_append_cons (by decide), dropWhile_append_cons (by decide),
    List.takeWhile_eq_self_iff.mpr hall, List.dropWhile_eq_nil_iff.mpr hall]
  exact ⟨rfl, rfl⟩

theorem converts (h : Proper user number message t) :
    Converts (lineText user number message) ∧ timeout (lineText user number message) = t := by
  obtain ⟨minus, digits, hnegative, hnumeral, hne, hall, ht⟩ :=
    h.number.1.scan (32 :: (message ++ [10]))
  obtain ⟨hnegative', hnumeral'⟩ :=
    numeral_blank (by decide : isspace 32 = true) (number ++ 32 :: (message ++ [10]))
  unfold Converts timeout
  rw [h.word_eq.2, hnegative', hnumeral', hnegative, hnumeral, takeWhile_append_cons (by decide),
    List.takeWhile_eq_self_iff.mpr hall, List.head?_append_of_ne_nil _ hne]
  refine ⟨?_, ht.symm⟩
  obtain ⟨e, es, rfl⟩ := List.exists_cons_of_ne_nil hne
  exact hall e List.mem_cons_self

theorem behindSecond_eq (h : Proper user number message t) :
    behindSecond (lineText user number message) = some (message ++ [10]) := by
  have huser : 32 ∉ user := fun hmem => by
    have hspace := h.user.2.2.2 32 hmem
    revert hspace
    decide
  have hnumber := h.number.1.not_mem (c := 32) (by decide) (by decide)
  unfold behindSecond lineText
  rw [behindSpace_append huser, Option.bind_some, behindSpace_append hnumber]

theorem upToNewline_eq (h : Proper user number message t) :
    upToNewline (message ++ [10]) = message := by
  unfold upToNewline
  rw [takeWhile_append_cons (by decide), List.takeWhile_eq_self_iff]
  exact fun c hc => bne_iff_ne.mpr fun h10 => h.message.2.2 (h10 ▸ hc)

end Proper

/-! ## The record -/

/-- A string read back from bytes that go on behind it. -/
theorem cString_append_iff {m : List UInt8} (hm : 0 ∉ m) (c : UInt8) (rest : List UInt8) :
    cString (m ++ c :: rest) = some m ↔ c = 0 := by
  constructor
  · intro h
    rw [cString_eq] at h
    split at h
    · have htake := Option.some.inj h
      have hall : ∀ b ∈ m, (b != 0) = true := fun b hb => bne_iff_ne.mpr fun h0 => hm (h0 ▸ hb)
      by_contra hc
      have hmore : (m ++ c :: rest).takeWhile (fun b => b != 0) =
          m ++ c :: rest.takeWhile fun b => b != 0 := by
        rw [List.takeWhile_append_of_pos hall, List.takeWhile_cons, if_pos (bne_iff_ne.mpr hc)]
      rw [hmore] at htake
      simp at htake
    · cases h
  · rintro rfl
    rw [cString_eq, if_pos (List.mem_append_right m List.mem_cons_self), takeWhile_append_nul hm]

/-- The trigger time is the sum of the integers unless `ktime_set` saturates or the sum does not
    fit. -/
theorem trigger_time_exact_iff (now t : Int) :
    wrap 64 (now + ktime_set t) = now + t * NSEC_PER_SEC ↔
      t < KTIME_MAX / NSEC_PER_SEC ∧ InRange 64 (now + t * NSEC_PER_SEC) := by
  unfold ktime_set
  split
  · next hsat =>
      -- `KTIME_MAX` is odd
      refine iff_of_false ?_ fun h => Int.not_lt.mpr hsat h.1
      obtain ⟨k, hk⟩ := wrap_eq_sub 64 (now + KTIME_MAX)
      rw [hk]
      unfold KTIME_MAX NSEC_PER_SEC
      omega
  · next hlt =>
      rw [wrap_add_wrap, wrap_eq_self_iff (by decide)]
      exact (and_iff_right (Int.not_le.mp hlt)).symm

section

variable {user number message : List UInt8} {t : Int} (h : Proper user number message t)
include h

/-- A proper line is stored. -/
theorem recorder_store_proper (ktime_get : Nat → Int) (s : State) (d old : List UInt8) :
    recorder_store ktime_get s (lineText user number message ++ 0 :: d)
        (lineText user number message).length old =
      some ({ s with
        reminders := add_message s.reminders
          (stored ktime_get s.reads (lineText user number message) (message ++ [10]) old)
        reads := s.reads + 1 },
        some (stored ktime_get s.reads (lineText user number message) (message ++ [10]) old)) := by
  have hfits : (word (lineText user number message)).length < USER_LENGTH := by
    rw [h.word_eq.1]
    exact h.user.2.1
  have hmessage := h.message.1
  have hroom : ¬ (10 ∉ message ++ [10] ∨ message.length > MESSAGE_LENGTH + 16) :=
    not_or.mpr ⟨by simp, by omega⟩
  rw [recorder_store_converted h.nul_not_mem hfits h.converts.1, h.behindSecond_eq,
    Option.bind_some, if_neg (by simp), h.upToNewline_eq, if_neg hroom]

theorem stored_trigger_time (ktime_get : Nat → Int) (reads : Nat) (c old : List UInt8) :
    (stored ktime_get reads (lineText user number message) c old).trigger_time =
      wrap 64 (ktime_get reads + ktime_set t) := by
  unfold stored
  rw [h.converts.2, wrap_of_inRange (by decide) h.number.2]

/-- The user is padded with zeros. -/
theorem stored_user (ktime_get : Nat → Int) (reads : Nat) (c old : List UInt8) :
    cString (stored ktime_get reads (lineText user number message) c old).user = some user := by
  unfold stored
  rw [h.word_eq.1, zeros_eq_cons (Nat.sub_pos_of_lt h.user.2.1)]
  exact (cString_append_iff h.user.2.2.1 0 _).mpr rfl

/-- The message is not: it ends where it should if the memory has a zero there. -/
theorem stored_message_iff (ktime_get : Nat → Int) (reads : Nat) {old : List UInt8}
    (hold : old.length = MESSAGE_LENGTH) :
    cString (stored ktime_get reads (lineText user number message) (message ++ [10]) old).message =
        some message ↔ old[message.length]? = some 0 := by
  have hmessage := h.message.1
  have hmore : old.drop message.length ≠ [] := fun hnil => by
    have hlen := congrArg List.length hnil
    rw [List.length_drop, List.length_nil] at hlen
    omega
  obtain ⟨c, rest, hc⟩ := List.exists_cons_of_ne_nil hmore
  obtain ⟨k, hk⟩ := Nat.exists_eq_add_of_lt hmessage
  unfold stored
  dsimp only
  rw [h.upToNewline_eq, hc, hk, Nat.add_assoc, List.take_append, List.take_of_length_le (by omega),
    Nat.add_sub_cancel_left, List.take_succ_cons, cString_append_iff h.message.2.1,
    ← List.head?_drop, hc, List.head?_cons, Option.some.injEq]

end

/-- The call records the line as written exactly when the byte behind the message was zero, and
    the time asked for neither saturates nor overflows. -/
theorem recorded_iff {user number message : List UInt8} {t : Int}
    (h : Proper user number message t) (ktime_get : Nat → Int) (s : State) (d : List UInt8)
    {old : List UInt8} (hold : old.length = MESSAGE_LENGTH) :
    Records ktime_get s (lineText user number message ++ 0 :: d)
        (lineText user number message).length old user message
        (ktime_get s.reads + t * NSEC_PER_SEC) ↔
      old[message.length]? = some 0 ∧ t < KTIME_MAX / NSEC_PER_SEC ∧
        InRange 64 (ktime_get s.reads + t * NSEC_PER_SEC) := by
  have hstore := recorder_store_proper h ktime_get s d old
  rw [← trigger_time_exact_iff, ← stored_trigger_time h ktime_get s.reads (message ++ [10]) old,
    ← stored_message_iff h ktime_get s.reads hold]
  constructor
  · rintro ⟨s', r, as, bs, hcall, -, -, -, -, hm, htime⟩
    rw [hstore] at hcall
    cases hcall
    exact ⟨hm, htime⟩
  · rintro ⟨hm, htime⟩
    obtain ⟨as, bs, hsplit, hadd, -⟩ := add_message_split s.reminders
      (stored ktime_get s.reads (lineText user number message) (message ++ [10]) old)
    exact ⟨_, _, as, bs, hstore, hsplit, hadd, rfl, stored_user h _ _ _ _, hm, htime⟩

/-- "bob 5 hi". -/
theorem proper_hi : Proper [98, 111, 98] [53] [104, 105] 5 where
  user := ⟨by decide, by decide, by decide, by simp [isspace]⟩
  number := ⟨⟨false, [53], by decide, by decide, by simp [isdigit], by decide⟩, by decide⟩
  message := ⟨by decide, by decide, by decide⟩

/-- The same line over a page of zeros. -/
theorem recorded_iff_hi : Records (fun _ => 0) State.init
    (lineText [98, 111, 98] [53] [104, 105] ++ 0 :: []) 9 (List.replicate 128 0) [98, 111, 98]
    [104, 105] (0 + 5 * NSEC_PER_SEC) :=
  (recorded_iff proper_hi (fun _ => 0) State.init [] List.length_replicate).mpr
    ⟨by decide, by decide, by decide⟩

/-- Over three bytes "xxx" that were left there the message reads "hix". -/
theorem leftover_message : ¬ ∀ (ktime_get : Nat → Int) (s : State) (d old user number message :
    List UInt8) (t : Int), Proper user number message t → old.length = MESSAGE_LENGTH →
    t < KTIME_MAX / NSEC_PER_SEC → InRange 64 (ktime_get s.reads + t * NSEC_PER_SEC) →
    Records ktime_get s (lineText user number message ++ 0 :: d)
      (lineText user number message).length old user message
      (ktime_get s.reads + t * NSEC_PER_SEC) := by
  intro h
  obtain ⟨s', r, as, bs, hcall, -, -, -, -, hmessage, -⟩ :=
    h (fun _ => 0) State.init [] (120 :: 120 :: 120 :: List.replicate 125 0) _ _ _ _ proper_hi
      (by decide +kernel) (by decide) (by decide)
  have hread : (recorder_store (fun _ => 0) State.init
      (lineText [98, 111, 98] [53] [104, 105] ++ 0 :: [])
      (lineText [98, 111, 98] [53] [104, 105]).length
      (120 :: 120 :: 120 :: List.replicate 125 0)).map
        (fun x => x.2.map fun r => cString r.message) = some (some (some [104, 105, 120])) := by
    decide +kernel
  rw [hcall, Option.map_some, Option.map_some, hmessage] at hread
  revert hread
  decide

end KernelBasecamp.Reminders
