/-
  What `recorder_store` does with a line.

  `sscanf` takes the user and the number behind any white space, while the two `strchr` calls
  take what follows the second space of the line for the message. The outcome of a call is
  stated in terms of both views of the line; where null is used, or a word or a message is too
  long, it is `none`.

  * `recorder_store_long`, `recorder_store_unparsed` and `recorder_store_converted`: the outcome
    for every line.
  * `survives_iff`: a call on a terminated buffer survives exactly when the line is `Orderly`.
-/
import KernelBasecamp.Reminders.Store

namespace KernelBasecamp.Reminders

open Lib Lib.CInt Lib.CMem Lib.Sscanf

/-! ## The line as `sscanf` sees it -/

/-- Both conversions succeed: behind the first word a number begins. -/
def Converts (t : List UInt8) : Prop := (numeral (behindWord t)).head?.any isdigit = true

instance (t : List UInt8) : Decidable (Converts t) := inferInstanceAs (Decidable (_ = true))

/-- The number read. -/
def timeout (t : List UInt8) : Int :=
  signed (negative (behindWord t)) (digitsValue ((numeral (behindWord t)).takeWhile isdigit))

/-- The text behind the number. -/
def behindNumber (t : List UInt8) : List UInt8 := (numeral (behindWord t)).dropWhile isdigit

theorem scanLine_eq {t : List UInt8} (ht : 0 ∉ t) (d : List UInt8) :
    scanLine (t ++ 0 :: d) =
      if USER_LENGTH ≤ (word t).length then none
      else some (if Converts t then some (word t, wrap 64 (timeout t)) else none) := by
  unfold scanLine
  rw [scanWord_string ht]
  by_cases hnil : t = []
  · subst hnil
    rfl
  · obtain ⟨hnegative, hnumeral⟩ := numeral_dropWhile (behindWord t)
    rw [if_neg hnil, Option.bind_eq_bind, Option.bind_some]
    dsimp only
    split
    · rfl
    · rw [skip_spaces_string, Option.bind_eq_bind, Option.bind_some, scanInt_string,
        Option.bind_eq_bind, Option.bind_some, hnegative, hnumeral]
      by_cases hdigit : (numeral (behindWord t)).head?.any isdigit = true
      · rw [if_pos hdigit, if_pos (show Converts t from hdigit)]
        rfl
      · rw [if_neg hdigit, if_neg (show ¬ Converts t from hdigit)]
        rfl

/-! ## The line as `strchr` sees it -/

/-- The text behind the first space. -/
def behindSpace (t : List UInt8) : Option (List UInt8) := (t.dropWhile (· != 32)).tail?

/-- The text behind the second space. -/
def behindSecond (t : List UInt8) : Option (List UInt8) := (behindSpace t).bind behindSpace

/-- The text up to the newline. -/
def upToNewline (c : List UInt8) : List UInt8 := c.takeWhile (· != 10)

theorem behindSpace_append {a : List UInt8} (ha : 32 ∉ a) (c : List UInt8) :
    behindSpace (a ++ 32 :: c) = some c := by
  have hall : a.dropWhile (· != 32) = [] := List.dropWhile_eq_nil_iff.mpr fun e he =>
    bne_iff_ne.mpr fun h => ha (h ▸ he)
  unfold behindSpace
  rw [dropWhile_append_cons (by decide), hall]
  rfl

theorem behindSpace_cases (t : List UInt8) :
    (32 ∉ t ∧ behindSpace t = none) ∨
    ∃ a c, 32 ∉ a ∧ t = a ++ 32 :: c ∧ behindSpace t = some c := by
  by_cases h : 32 ∈ t
  · obtain ⟨a, c, rfl, ha⟩ := List.eq_append_cons_of_mem h
    exact .inr ⟨a, c, ha, rfl, behindSpace_append ha c⟩
  · have hall : t.dropWhile (· != 32) = [] := List.dropWhile_eq_nil_iff.mpr fun e he =>
      bne_iff_ne.mpr fun hc => h (hc ▸ he)
    refine .inl ⟨h, ?_⟩
    unfold behindSpace
    rw [hall]
    rfl

/-- Where the pointer behind the second space points to; without a second space null is
    advanced and used. -/
theorem afterSecond_cases {t : List UInt8} (ht : 0 ∉ t) (d : List UInt8) :
    (behindSecond t = none ∧ afterSecond 32 (t ++ 0 :: d) = none) ∨
    ∃ c p, behindSecond t = some c ∧ afterSecond 32 (t ++ 0 :: d) = some p ∧
      p + c.length = t.length ∧ (t ++ 0 :: d).drop p = c ++ 0 :: d ∧ 0 ∉ c := by
  unfold behindSecond afterSecond
  rcases behindSpace_cases t with ⟨hnone, hb⟩ | ⟨a, c, ha, rfl, hb⟩
  · refine .inl ⟨by rw [hb]; rfl, ?_⟩
    rw [strchr_null ht hnone (by decide)]
    rfl
  · have ha0 : 0 ∉ a := fun h => ht (List.mem_append_left _ h)
    have hc0 : 0 ∉ c := fun h => ht (List.mem_append_right _ (List.mem_cons_of_mem _ h))
    have hfirst : strchr 32 (a ++ 32 :: c ++ 0 :: d) = some (some a.length) := by
      rw [List.append_assoc]
      exact strchr_append ha0 ha _
    have hdrop : (a ++ 32 :: c ++ 0 :: d).drop (a.length + 1) = c ++ 0 :: d := by
      rw [List.append_assoc, List.drop_length_add_append]
      rfl
    rw [hb, hfirst]
    simp only [Option.bind_eq_bind, Option.bind_some, hdrop]
    rcases behindSpace_cases c with ⟨hnone, hb'⟩ | ⟨b, e, hb32, rfl, hb'⟩
    · refine .inl ⟨hb', ?_⟩
      rw [strchr_null hc0 hnone (by decide)]
      rfl
    · have hb0 : 0 ∉ b := fun h => hc0 (List.mem_append_left _ h)
      have he0 : 0 ∉ e := fun h => hc0 (List.mem_append_right _ (List.mem_cons_of_mem _ h))
      have hsecond : strchr 32 (b ++ 32 :: e ++ 0 :: d) = some (some b.length) := by
        rw [List.append_assoc]
        exact strchr_append hb0 hb32 _
      refine .inr ⟨e, a.length + 1 + (b.length + 1), hb', ?_, ?_, ?_, he0⟩
      · rw [hsecond]
        rfl
      · simp only [List.length_append, List.length_cons]
        omega
      · rw [← List.drop_drop, hdrop, List.append_assoc, List.drop_length_add_append]
        rfl

/-! ## The call -/

/-- The record that a line is stored as. -/
def stored (ktime_get : Nat → Int) (reads : Nat) (t c old : List UInt8) : Reminder where
  trigger_time := wrap 64 (ktime_get reads + ktime_set (wrap 64 (timeout t)))
  user := word t ++ List.replicate (USER_LENGTH - (word t).length) 0
  message := (upToNewline c ++ old.drop (upToNewline c).length).take MESSAGE_LENGTH

/-- `strchr` for the newline and for the terminator, and the smaller of the two. -/
theorem newline_cases {c : List UInt8} (hc : 0 ∉ c) (d : List UInt8) :
    strchr 0 (c ++ 0 :: d) = some (some c.length) ∧
    (10 ∉ c ∧ strchr 10 (c ++ 0 :: d) = some none ∨
      10 ∈ c ∧ strchr 10 (c ++ 0 :: d) = some (some (upToNewline c).length) ∧
        (upToNewline c).length ≤ c.length) := by
  refine ⟨strchr_append hc hc d, ?_⟩
  by_cases h : 10 ∈ c
  · refine .inr ⟨h, ?_, (List.takeWhile_prefix _).length_le⟩
    obtain ⟨m, e, rfl, hm⟩ := List.eq_append_cons_of_mem h
    have hm0 : 0 ∉ m := fun h0 => hc (List.mem_append_left _ h0)
    have hup : upToNewline (m ++ 10 :: e) = m := by
      unfold upToNewline
      rw [takeWhile_append_cons (by decide), List.takeWhile_eq_self_iff]
      exact fun b hb => bne_iff_ne.mpr fun hb10 => hm (hb10 ▸ hb)
    rw [hup, List.append_assoc]
    exact strchr_append hm0 hm _
  · exact .inl ⟨h, strchr_null hc h (by decide) d⟩

/-- `strncpy` of the message copies exactly its bytes, and no terminator. -/
theorem copyMessage_eq {c : List UInt8} (hc : 0 ∉ c) (d old : List UInt8) :
    copyMessage (c ++ 0 :: d) (upToNewline c).length old =
      if (upToNewline c).length > MESSAGE_LENGTH + 16 then none
      else some ((upToNewline c ++ old.drop (upToNewline c).length).take MESSAGE_LENGTH) := by
  have hpre : (c ++ 0 :: d).take (upToNewline c).length = upToNewline c :=
    List.prefix_iff_eq_take.mp ((List.takeWhile_prefix _).trans (List.prefix_append c _)) |>.symm
  have hnul : ∀ b ∈ upToNewline c, (b != 0) = true := fun b hb =>
    bne_iff_ne.mpr fun h0 => hc (h0 ▸ (List.takeWhile_prefix _).subset hb)
  have hcopy : strncpy (c ++ 0 :: d) (upToNewline c).length = some (upToNewline c) := by
    unfold strncpy
    rw [hpre, List.takeWhile_eq_self_iff.mpr hnul, if_pos (.inl rfl), Nat.sub_self,
      List.replicate_zero, List.append_nil]
  unfold copyMessage
  split
  · rfl
  · rw [hcopy]
    rfl

theorem nul_not_mem_word {t : List UInt8} (ht : 0 ∉ t) : 0 ∉ word t := fun h =>
  ht ((List.dropWhile_suffix _).subset ((List.takeWhile_prefix _).subset h))

/-- A first word that is too long for `u`. -/
theorem recorder_store_long {t : List UInt8} (ht : 0 ∉ t) (hlong : USER_LENGTH ≤ (word t).length)
    (ktime_get : Nat → Int) (s : State) (d old : List UInt8) :
    recorder_store ktime_get s (t ++ 0 :: d) t.length old = none := by
  unfold recorder_store
  rw [scanLine_eq ht, if_pos hlong]
  rfl

/-- A line without a user or a number is rejected. -/
theorem recorder_store_unparsed {t : List UInt8} (ht : 0 ∉ t)
    (hfits : (word t).length < USER_LENGTH) (hconv : ¬ Converts t) (ktime_get : Nat → Int)
    (s : State) (d old : List UInt8) :
    recorder_store ktime_get s (t ++ 0 :: d) t.length old = some (s, none) := by
  unfold recorder_store
  rw [scanLine_eq ht, if_neg (Nat.not_le_of_lt hfits), if_neg hconv, Option.bind_eq_bind,
    Option.bind_some]

/-- A call on a line with a user and a number: what becomes of it is decided by the text behind
    the second space. -/
theorem recorder_store_converted {t : List UInt8} (ht : 0 ∉ t)
    (hfits : (word t).length < USER_LENGTH) (hconv : Converts t) (ktime_get : Nat → Int)
    (s : State) (d old : List UInt8) :
    recorder_store ktime_get s (t ++ 0 :: d) t.length old =
      (behindSecond t).bind fun c =>
        if c = [] then some (s, none)
        else if 10 ∉ c ∨ (upToNewline c).length > MESSAGE_LENGTH + 16 then none
        else some ({ s with
          reminders := add_message s.reminders (stored ktime_get s.reads t c old)
          reads := s.reads + 1 }, some (stored ktime_get s.reads t c old)) := by
  unfold recorder_store
  rw [scanLine_eq ht, if_neg (Nat.not_le_of_lt hfits), if_pos hconv, Option.bind_eq_bind,
    Option.bind_some]
  dsimp only
  rcases afterSecond_cases ht d with ⟨hnone, hafter⟩ | ⟨c, p, hsome, hafter, hp, hdrop, hc⟩
  · rw [hnone, hafter]
    rfl
  · obtain ⟨hterminator, hnewline⟩ := newline_cases hc d
    have huser : strncpy (word t ++ [0]) USER_LENGTH =
        some (word t ++ List.replicate (USER_LENGTH - (word t).length) 0) :=
      strncpy_append (nul_not_mem_word ht) hfits []
    rw [hsome, hafter, Option.bind_some, Option.bind_eq_bind, Option.bind_some, hdrop,
      hterminator]
    by_cases hnil : c = []
    · -- nothing follows the second space
      have hend : p ≥ t.length := by
        rw [hnil, List.length_nil] at hp
        omega
      rcases hnewline with ⟨-, hnull⟩ | ⟨hmem, -⟩
      · rw [hnull, if_pos hnil]
        exact if_pos hend
      · rw [hnil] at hmem
        cases hmem
    · have hpos := List.length_pos_of_ne_nil hnil
      have hmore : ¬ p ≥ t.length := by omega
      rw [if_neg hnil]
      rcases hnewline with ⟨hmem, hnull⟩ | ⟨hmem, hfound, hle⟩
      · -- the null result is the minimum
        rw [hnull, if_pos (.inl hmem)]
        exact if_neg hmore
      · have hmin : min (upToNewline c).length c.length = (upToNewline c).length :=
          Nat.min_eq_left hle
        rw [hfound]
        simp only [Option.bind_eq_bind, Option.bind_some]
        rw [if_neg hmore, hmin, huser, Option.bind_some, copyMessage_eq hc]
        by_cases hlarge : (upToNewline c).length > MESSAGE_LENGTH + 16
        · rw [if_pos hlarge, if_pos (.inr hlarge)]
          rfl
        · rw [if_neg hlarge, if_neg (not_or.mpr ⟨not_not_intro hmem, hlarge⟩)]
          rfl

/-! ## Which lines are survived -/

/-- `m_last - m_ptr`. -/
def messageLength (buf : List UInt8) : Option Nat := do
  let m_ptr ← afterSecond 32 buf
  let newline ← (← strchr 10 (buf.drop m_ptr))
  let terminator ← (← strchr 0 (buf.drop m_ptr))
  some (min newline terminator)

/-- The line has a user and a number, and behind the number a space that something follows. -/
def Complete (t : List UInt8) : Prop := Converts t ∧ 32 ∈ (behindNumber t).dropLast

instance (t : List UInt8) : Decidable (Complete t) := inferInstanceAs (Decidable (_ ∧ _))

/-- The call with the line `t` does not fault and stores no more than a record has room for,
    and a line that is not complete is rejected. -/
def Survives (ktime_get : Nat → Int) (s : State) (t d old : List UInt8) : Prop :=
  ∃ s' added, recorder_store ktime_get s (t ++ 0 :: d) t.length old = some (s', added) ∧
    (added.isSome → ∃ n, messageLength (t ++ 0 :: d) = some n ∧ n ≤ MESSAGE_LENGTH) ∧
    (¬ Complete t → s' = s ∧ added = none)

/-- The first word fits `u`; and if a number follows, the line has two spaces, and behind the
    second one nothing, or a message that fits and ends in a newline. In the last case there is
    a space behind the number too. -/
def Orderly (t : List UInt8) : Prop :=
  (word t).length < USER_LENGTH ∧
  (Converts t → ∃ c ∈ behindSecond t, c = [] ∨
    10 ∈ c ∧ (upToNewline c).length ≤ MESSAGE_LENGTH ∧ 32 ∈ (behindNumber t).dropLast)

theorem messageLength_eq {t c : List UInt8} (ht : 0 ∉ t) (d : List UInt8)
    (hsecond : behindSecond t = some c) (hc : 10 ∈ c) :
    messageLength (t ++ 0 :: d) = some (upToNewline c).length := by
  rcases afterSecond_cases ht d with ⟨hnone, -⟩ | ⟨c', p, hsome, hafter, -, hdrop, hc0⟩
  · rw [hsecond] at hnone
    cases hnone
  · rw [hsecond] at hsome
    cases hsome
    obtain ⟨hterminator, ⟨hmem, -⟩ | ⟨-, hfound, hle⟩⟩ := newline_cases hc0 d
    · exact absurd hc hmem
    · unfold messageLength
      rw [hafter, Option.bind_eq_bind, Option.bind_some, hdrop, hfound, hterminator]
      simp only [Option.bind_eq_bind, Option.bind_some]
      rw [Nat.min_eq_left hle]

/-- A call on a terminated buffer survives exactly when its line is orderly. -/
theorem survives_iff {t : List UInt8} (ht : 0 ∉ t) (ktime_get : Nat → Int) (s : State)
    (d old : List UInt8) : Survives ktime_get s t d old ↔ Orderly t := by
  unfold Survives
  by_cases hlong : USER_LENGTH ≤ (word t).length
  · rw [recorder_store_long ht hlong]
    refine iff_of_false ?_ fun h => Nat.not_le_of_lt h.1 hlong
    rintro ⟨s', added, h, -⟩
    cases h
  have hfits := Nat.lt_of_not_le hlong
  by_cases hconv : Converts t
  swap
  · rw [recorder_store_unparsed ht hfits hconv]
    exact iff_of_true ⟨s, none, rfl, (nomatch ·), fun _ => ⟨rfl, rfl⟩⟩
      ⟨hfits, fun h => absurd h hconv⟩
  rw [recorder_store_converted ht hfits hconv]
  constructor
  · rintro ⟨s', added, h, hlen, hrejected⟩
    refine ⟨hfits, fun _ => ?_⟩
    obtain ⟨c, hsecond, h⟩ := Option.bind_eq_some_iff.mp h
    refine ⟨c, hsecond, ?_⟩
    split at h
    · next hnil => exact .inl hnil
    · split at h
      · cases h
      · next hmem =>
          cases h
          have hmem : 10 ∈ c := not_not.mp (not_or.mp hmem).1
          obtain ⟨n, hn, hle⟩ := hlen rfl
          rw [messageLength_eq ht d hsecond hmem] at hn
          cases hn
          have hcomplete : Complete t := by
            by_contra hcon
            cases (hrejected hcon).2
          exact .inr ⟨hmem, hle, hcomplete.2⟩
  · rintro ⟨-, h⟩
    obtain ⟨c, hsecond, hnil | ⟨hmem, hle, hspace⟩⟩ := h hconv
    · refine ⟨s, none, ?_, (nomatch ·), fun _ => ⟨rfl, rfl⟩⟩
      rw [hsecond, Option.bind_some, if_pos hnil]
    · have hroom : ¬ (10 ∉ c ∨ (upToNewline c).length > MESSAGE_LENGTH + 16) :=
        not_or.mpr ⟨not_not_intro hmem, by omega⟩
      rw [hsecond, Option.bind_some, if_neg (List.ne_nil_of_mem hmem), if_neg hroom]
      exact ⟨_, _, rfl, fun _ => ⟨_, messageLength_eq ht d hsecond hmem, hle⟩,
        fun hcon => absurd ⟨hconv, hspace⟩ hcon⟩

/-- "bob 5 hi". -/
theorem survives_iff_hi :
    Survives (fun _ => 0) State.init [98, 111, 98, 32, 53, 32, 104, 105, 10] [] [] :=
  (survives_iff (by decide) _ _ _ _).mpr
    ⟨by decide, fun _ => ⟨[104, 105, 10], by decide, .inr ⟨by decide, by decide, by decide⟩⟩⟩

/-- "bob 5": without a second space null is advanced, and the string at address 1 searched. -/
theorem no_second_space : ¬ ∀ (t d old : List UInt8) (ktime_get : Nat → Int) (s : State),
    0 ∉ t → Survives ktime_get s t d old := by
  intro h
  obtain ⟨s', added, hstore, -⟩ :=
    h [98, 111, 98, 32, 53, 10] [] [] (fun _ => 0) State.init (by decide)
  have hfault : (recorder_store (fun _ => 0) State.init [98, 111, 98, 32, 53, 10, 0] 6 []).isSome =
      false := by decide +kernel
  cases hfault.symm.trans (congrArg Option.isSome hstore)

end KernelBasecamp.Reminders
