/-
  `print_messages` and `recorder_show` of the reminder module.

  The buffer is the memory from `buffer` on, and `user` the memory from the filter's pointer on
  (`none`: null). The arrays of a reminder are read up to their terminator; one that has none is
  a fault, and so is a store behind the end of the memory.

  Each `snprintf` may fill `buffer_size` bytes from where it starts, so the lines are cut off one
  by one (`cutEach`) and not as a whole. `print_messages_eq` says what is printed into a cleared
  memory of any length, and `respects_iff` when the first `buffer_size` bytes are enough.
-/
import KernelBasecamp.Lib.CString
import KernelBasecamp.Lib.Decimal
import KernelBasecamp.Reminders.Store

namespace KernelBasecamp.Reminders

open Lib.CMem Lib.Decimal

def NS : Int := 1000000000

/-- `"%s <- %lld : %s\n"`. -/
def formatLine (user : List UInt8) (seconds : Int) (message : List UInt8) : List UInt8 :=
  user ++ [32, 60, 45, 32] ++ intText seconds ++ [32, 58, 32] ++ message ++ [10]

/-- `user && strcmp(r->user, user)`. -/
def skipped (user : Option (List UInt8)) (r : Reminder) : Option Bool :=
  match user with
  | none => some false
  | some user => (strcmp r.user user).map (· != 0)

/-- The loop of `print_messages`, from the pointer `ptr` on. -/
def printLoop (buffer_size : Nat) (user : Option (List UInt8)) :
    List Reminder → List UInt8 → Nat → Option (List UInt8)
  | [], m, _ => some m
  | r :: rs, m, ptr => do
      if ← skipped user r then printLoop buffer_size user rs m ptr
      else
        let line := formatLine (← cString r.user) (r.trigger_time.tdiv NS)
          (← cString r.message)
        let m ← snprintf m ptr buffer_size line
        let n ← strlen (m.drop ptr)
        printLoop buffer_size user rs m (ptr + n)

def print_messages (reminders : List Reminder) (buffer : List UInt8) (buffer_size : Nat)
    (user : Option (List UInt8)) : Option (List UInt8) :=
  printLoop buffer_size user reminders buffer 0

/-- The page after the call, and the return value. -/
def recorder_show (reminders : List Reminder) (buf current_user : List UInt8) :
    Option (List UInt8 × Nat) := do
  let first ← current_user.head?
  let buf ← print_messages reminders buf 2048 (if first = 0 then none else some current_user)
  let n ← strlen buf
  some (buf, n)

/-! ## What should be printed -/

def Selected (user : Option (List UInt8)) (r : Reminder) : Prop :=
  ∀ u ∈ user, string r.user = string u

instance (user : Option (List UInt8)) (r : Reminder) : Decidable (Selected user r) :=
  inferInstanceAs (Decidable (∀ u ∈ user, string r.user = string u))

/-- The line of a reminder, "user <- seconds : message". -/
def lineOf (r : Reminder) : List UInt8 :=
  formatLine (string r.user) (r.trigger_time.tdiv NS) (string r.message)

/-- The lines of the selected reminders. -/
def linesOf (user : Option (List UInt8)) (reminders : List Reminder) : List (List UInt8) :=
  (reminders.filter fun r => Selected user r).map lineOf

/-- The strings that are read for a reminder end inside their arrays. -/
def Readable (user : Option (List UInt8)) (r : Reminder) : Prop :=
  (∀ u ∈ user, (strcmp r.user u).isSome) ∧ (Selected user r → 0 ∈ r.user ∧ 0 ∈ r.message)

/-- On a cleared buffer of `buffer_size` bytes nothing outside of it is touched, and it holds
    the lines of the selected reminders, cut off at `buffer_size - 1` bytes, and a NUL. -/
def Respects (reminders : List Reminder) (buffer_size : Nat) (user : Option (List UInt8)) :
    Prop :=
  ∃ d, print_messages reminders (List.replicate buffer_size 0) buffer_size user =
    some ((linesOf user reminders).flatten.take (buffer_size - 1) ++ 0 :: d)

variable {user : Option (List UInt8)} {r : Reminder} {rs : List Reminder} {bs k : Nat}
  {t : List UInt8}

theorem lineOf_ne_nil (r : Reminder) : lineOf r ≠ [] := by simp [lineOf, formatLine]

theorem nul_not_mem_string (m : List UInt8) : 0 ∉ string m := takeWhile_no_nul m

theorem nul_not_mem_lineOf (r : Reminder) : 0 ∉ lineOf r := by
  have huser := nul_not_mem_string r.user
  have hmessage := nul_not_mem_string r.message
  have hseconds := nul_not_mem_intText (r.trigger_time.tdiv NS)
  simp [lineOf, formatLine, huser, hmessage, hseconds]

theorem linesOf_cons (user : Option (List UInt8)) (r : Reminder) (rs : List Reminder) :
    linesOf user (r :: rs) =
      if Selected user r then lineOf r :: linesOf user rs else linesOf user rs := by
  unfold linesOf
  rw [List.filter_cons]
  simp only [decide_eq_true_eq]
  split <;> rfl

/-! ## The filter and the strings -/

theorem skipped_eq (h : ∀ u ∈ user, (strcmp r.user u).isSome) :
    skipped user r = some (decide (¬ Selected user r)) := by
  cases user with
  | none => exact congrArg some (decide_eq_false (not_not.mpr fun u hu => nomatch hu)).symm
  | some u =>
      obtain ⟨d, hd⟩ := Option.isSome_iff_exists.mp (h u rfl)
      have hsel : Selected (some u) r ↔ d = 0 :=
        ⟨fun hsel => (strcmp_eq_zero hd).mpr (hsel u rfl), fun hzero v hv => by
          cases hv
          exact (strcmp_eq_zero hd).mp hzero⟩
      change (strcmp r.user u).map (· != 0) = _
      rw [hd, Option.map_some, Option.some.injEq, Bool.eq_iff_iff, bne_iff_ne, decide_eq_true_eq,
        hsel]

theorem strcmp_of_skipped {b : Bool} (h : skipped user r = some b) :
    ∀ u ∈ user, (strcmp r.user u).isSome := by
  rintro u rfl
  obtain ⟨d, hd, -⟩ := Option.map_eq_some_iff.mp h
  rw [hd]
  rfl

theorem cString_of_mem {m : List UInt8} (h : 0 ∈ m) : cString m = some (string m) := by
  rw [cString_eq, if_pos h]
  rfl

theorem mem_of_cString {m u : List UInt8} (h : cString m = some u) : 0 ∈ m := by
  by_contra hm
  rw [cString_eq, if_neg hm] at h
  cases h

/-! ## The loop -/

/-- What is printed was readable. -/
theorem printLoop_readable {m m' : List UInt8} {ptr : Nat}
    (h : printLoop bs user rs m ptr = some m') : ∀ r ∈ rs, Readable user r := by
  induction rs generalizing m ptr with
  | nil => exact fun r hr => absurd hr List.not_mem_nil
  | cons r rs ih =>
      rw [printLoop] at h
      simp only [Option.bind_eq_bind, Option.bind_eq_some_iff] at h
      obtain ⟨b, hb, h⟩ := h
      have hcmp := strcmp_of_skipped hb
      rw [skipped_eq hcmp, Option.some.injEq] at hb
      cases b with
      | true =>
          rw [if_pos rfl] at h
          have hskip := of_decide_eq_true hb
          exact List.forall_mem_cons.mpr ⟨⟨hcmp, fun hsel => absurd hsel hskip⟩, ih h⟩
      | false =>
          rw [if_neg Bool.false_ne_true] at h
          simp only [Option.bind_eq_some_iff] at h
          obtain ⟨u, hu, v, hv, m₁, _, n, _, h⟩ := h
          exact List.forall_mem_cons.mpr
            ⟨⟨hcmp, fun _ => ⟨mem_of_cString hu, mem_of_cString hv⟩⟩, ih h⟩

/-- Behind the text `t`, in a stretch of `k` zeros, the lines are printed one behind the other,
    each cut off at `buffer_size - 1`, if they and a NUL fit. -/
theorem printLoop_eq (hbs : 0 < bs ∧ bs ≤ INT_MAX) (hk : 0 < k) (h : ∀ r ∈ rs, Readable user r) :
    printLoop bs user rs (t ++ List.replicate k 0) t.length =
      if (cutEach (bs - 1) (linesOf user rs)).length < k then
        some (t ++ cutEach (bs - 1) (linesOf user rs) ++
          List.replicate (k - (cutEach (bs - 1) (linesOf user rs)).length) 0)
      else none := by
  induction rs generalizing t k with
  | nil =>
      have hnone : cutEach (bs - 1) (linesOf user []) = [] := rfl
      rw [printLoop, hnone, List.length_nil, if_pos hk, List.append_nil, Nat.sub_zero]
  | cons r rs ih =>
      obtain ⟨⟨hcmp, hstrings⟩, hrs⟩ := List.forall_mem_cons.mp h
      rw [printLoop, skipped_eq hcmp, linesOf_cons]
      by_cases hsel : Selected user r
      · obtain ⟨huser, hmessage⟩ := hstrings hsel
        rw [if_pos hsel, cutEach_cons, decide_eq_false (not_not.mpr hsel)]
        simp only [Option.bind_eq_bind, Option.bind_some, Bool.false_eq_true, if_false,
          cString_of_mem huser, cString_of_mem hmessage]
        change ((snprintf (t ++ List.replicate k 0) t.length bs (lineOf r)).bind fun m =>
          (strlen (m.drop t.length)).bind fun n =>
            printLoop bs user rs m (t.length + n)) = _
        rw [snprintf_zeros t k hbs]
        have hnul : 0 ∉ (lineOf r).take (bs - 1) := fun hz =>
          nul_not_mem_lineOf r (List.mem_of_mem_take hz)
        generalize (lineOf r).take (bs - 1) = w at hnul
        by_cases hw : w.length < k
        · -- the pointer moves to the NUL behind the line
          have hlen : strlen ((t ++ w ++ List.replicate (k - w.length) 0).drop t.length) =
              some w.length := by
            rw [List.append_assoc, List.drop_left, zeros_eq_cons (Nat.sub_pos_of_lt hw),
              strlen_append hnul]
          rw [if_pos hw, Option.bind_some, hlen, Option.bind_some, ← List.length_append,
            ih (by omega) hrs]
          have hsub : k - w.length - (cutEach (bs - 1) (linesOf user rs)).length =
              k - (w ++ cutEach (bs - 1) (linesOf user rs)).length := by
            rw [List.length_append]
            omega
          have hfit : (cutEach (bs - 1) (linesOf user rs)).length < k - w.length ↔
              (w ++ cutEach (bs - 1) (linesOf user rs)).length < k := by
            rw [List.length_append]
            omega
          simp only [hfit, hsub, List.append_assoc]
        · rw [if_neg hw, if_neg (by rw [List.length_append]; omega)]
          rfl
      · rw [if_neg hsel, decide_eq_true hsel]
        simp only [Option.bind_eq_bind, Option.bind_some, if_true]
        exact ih hk hrs

/-- A size that `snprintf` rejects: the pointer stays where it is. -/
theorem printLoop_rejected (hbs : INT_MAX < bs) (hk : 0 < k) (h : ∀ r ∈ rs, Readable user r) :
    printLoop bs user rs (t ++ List.replicate k 0) t.length =
      some (t ++ List.replicate k 0) := by
  induction rs with
  | nil => rfl
  | cons r rs ih =>
      obtain ⟨⟨hcmp, hstrings⟩, hrs⟩ := List.forall_mem_cons.mp h
      rw [printLoop, skipped_eq hcmp]
      by_cases hsel : Selected user r
      · obtain ⟨huser, hmessage⟩ := hstrings hsel
        have hlen : strlen ((t ++ List.replicate k 0).drop t.length) = some 0 := by
          rw [List.drop_left, zeros_eq_cons hk]
          rfl
        rw [decide_eq_false (not_not.mpr hsel)]
        simp only [Option.bind_eq_bind, Option.bind_some, Bool.false_eq_true, if_false,
          cString_of_mem huser, cString_of_mem hmessage, snprintf, hbs, or_true, if_true, hlen,
          Nat.add_zero]
        exact ih hrs
      · rw [decide_eq_true hsel]
        simp only [Option.bind_eq_bind, Option.bind_some, if_true]
        exact ih hrs

theorem printLoop_length {m m' : List UInt8} {ptr : Nat}
    (h : printLoop bs user rs m ptr = some m') : m'.length = m.length := by
  induction rs generalizing m ptr with
  | nil =>
      cases h
      rfl
  | cons r rs ih =>
      rw [printLoop] at h
      simp only [Option.bind_eq_bind, Option.bind_eq_some_iff] at h
      obtain ⟨b, _, h⟩ := h
      split at h
      · exact ih h
      · simp only [Option.bind_eq_some_iff] at h
        obtain ⟨u, _, v, _, m₁, hm, n, _, h⟩ := h
        exact (ih h).trans (snprintf_length hm)

/-- What is printed into a cleared memory of any length. -/
theorem print_messages_eq (hbs : 0 < bs ∧ bs ≤ INT_MAX) (hk : 0 < k)
    (h : ∀ r ∈ rs, Readable user r) :
    print_messages rs (List.replicate k 0) bs user =
      if (cutEach (bs - 1) (linesOf user rs)).length < k then
        some (cutEach (bs - 1) (linesOf user rs) ++
          List.replicate (k - (cutEach (bs - 1) (linesOf user rs)).length) 0)
      else none :=
  printLoop_eq (t := []) hbs hk h

/-- `recorder_show` returns the length of the printed text, as long as the page holds it. -/
theorem recorder_show_eq {c : UInt8} {cs : List UInt8} (hk : 0 < k)
    (huser : user = if c = 0 then none else some (c :: cs)) (h : ∀ r ∈ rs, Readable user r) :
    recorder_show rs (List.replicate k 0) (c :: cs) =
      if (cutEach 2047 (linesOf user rs)).length < k then
        some (cutEach 2047 (linesOf user rs) ++
          List.replicate (k - (cutEach 2047 (linesOf user rs)).length) 0,
          (cutEach 2047 (linesOf user rs)).length)
      else none := by
  have hprint := print_messages_eq (show 0 < 2048 ∧ 2048 ≤ INT_MAX by decide) hk h
  have hnul : 0 ∉ cutEach 2047 (linesOf user rs) := by
    intro hz
    obtain ⟨w, hw, hz⟩ := List.mem_flatten.mp hz
    obtain ⟨l, hl, rfl⟩ := List.mem_map.mp hw
    obtain ⟨r, -, rfl⟩ := List.mem_map.mp hl
    exact nul_not_mem_lineOf r (List.mem_of_mem_take hz)
  change (print_messages rs (List.replicate k 0) 2048 (if c = 0 then none else some (c :: cs))).bind
    (fun buf => (strlen buf).bind fun n => some (buf, n)) = _
  rw [← huser, hprint]
  change (if (cutEach 2047 (linesOf user rs)).length < k then _ else _ : Option _).bind _ = _
  generalize cutEach 2047 (linesOf user rs) = w at hnul
  by_cases hw : w.length < k
  · rw [if_pos hw, if_pos hw, Option.bind_some, zeros_eq_cons (Nat.sub_pos_of_lt hw),
      strlen_append hnul]
    rfl
  · rw [if_neg hw, if_neg hw]
    rfl

/-! ## The buffer -/

theorem linesOf_ne_nil (user : Option (List UInt8)) (rs : List Reminder) :
    ∀ l ∈ linesOf user rs, l ≠ [] := by
  intro l hl
  obtain ⟨r, -, rfl⟩ := List.mem_map.mp hl
  exact lineOf_ne_nil r

theorem nul_not_mem_linesOf (user : Option (List UInt8)) (rs : List Reminder) :
    0 ∉ (linesOf user rs).flatten := by
  intro hz
  obtain ⟨l, hl, hz⟩ := List.mem_flatten.mp hz
  obtain ⟨r, -, rfl⟩ := List.mem_map.mp hl
  exact nul_not_mem_lineOf r hz

/-- The lines fit, or there is at most one, or there is room for the NUL only. -/
def Fits (ls : List (List UInt8)) (buffer_size : Nat) : Prop :=
  ls.flatten.length < buffer_size ∨ ls.length ≤ 1 ∨ buffer_size = 1

theorem respects_of_accepted (hbs : 0 < bs ∧ bs ≤ INT_MAX) :
    Respects rs bs user ↔ (∀ r ∈ rs, Readable user r) ∧ Fits (linesOf user rs) bs := by
  have hcut := cutEach_length_le_iff (bs - 1) (linesOf_ne_nil user rs)
  have hfits : Fits (linesOf user rs) bs ↔ (cutEach (bs - 1) (linesOf user rs)).length < bs := by
    unfold Fits
    omega
  rw [hfits]
  constructor
  · rintro ⟨d, h⟩
    have hread := printLoop_readable h
    refine ⟨hread, ?_⟩
    rw [print_messages_eq hbs hbs.1 hread] at h
    by_contra hover
    rw [if_neg hover] at h
    cases h
  · rintro ⟨hread, hfit⟩
    have htake := cutEach_eq_take (linesOf_ne_nil user rs) (Nat.le_sub_one_of_lt hfit)
    refine ⟨List.replicate (bs - (cutEach (bs - 1) (linesOf user rs)).length - 1) 0, ?_⟩
    rw [print_messages_eq hbs hbs.1 hread, if_pos hfit, ← htake,
      zeros_eq_cons (Nat.sub_pos_of_lt hfit)]

theorem respects_of_rejected (hbs : INT_MAX < bs) :
    Respects rs bs user ↔ (∀ r ∈ rs, Readable user r) ∧ linesOf user rs = [] := by
  have hpos : 0 < bs := Nat.zero_lt_of_lt hbs
  have hzeros := zeros_eq_cons hpos
  constructor
  · rintro ⟨d, h⟩
    have hread := printLoop_readable h
    refine ⟨hread, ?_⟩
    rw [show print_messages rs (List.replicate bs 0) bs user = _ from
      printLoop_rejected (t := []) hbs hpos hread, List.nil_append, Option.some.injEq, hzeros] at h
    -- the first byte is NUL, and no line has one
    cases hls : linesOf user rs with
    | nil => rfl
    | cons l ls =>
        have hnul := nul_not_mem_linesOf user rs
        have hl := linesOf_ne_nil user rs l (hls ▸ List.mem_cons_self)
        rw [hls] at h hnul
        cases l with
        | nil => exact absurd rfl hl
        | cons b l =>
            have htwo : bs - 1 = bs - 2 + 1 := by
              unfold INT_MAX at hbs
              omega
            rw [List.flatten_cons, List.cons_append, htwo, List.take_succ_cons,
              List.cons_append] at h
            obtain ⟨rfl, -⟩ := List.cons.inj h
            exact absurd (List.mem_append_left _ List.mem_cons_self) hnul
  · rintro ⟨hread, hls⟩
    refine ⟨List.replicate (bs - 1) 0, ?_⟩
    rw [hls, ← hzeros, List.flatten_nil, List.take_nil]
    exact printLoop_rejected (t := []) hbs hpos hread

/-- `print_messages` respects its buffer if and only if the buffer is not empty, the strings end
    inside their arrays, and the lines fit with a NUL, unless at most one reminder is selected
    or there is room for the NUL only. With a size that `snprintf` rejects there must not be a
    line. -/
theorem respects_iff (reminders : List Reminder) (buffer_size : Nat)
    (user : Option (List UInt8)) :
    Respects reminders buffer_size user ↔
      0 < buffer_size ∧ (∀ r ∈ reminders, Readable user r) ∧
        Fits (linesOf user reminders) buffer_size ∧
        (buffer_size ≤ INT_MAX ∨ linesOf user reminders = []) := by
  by_cases hbs : buffer_size = 0
  · subst hbs
    refine iff_of_false ?_ fun h => absurd h.1 (Nat.lt_irrefl 0)
    rintro ⟨d, h⟩
    have hlen := printLoop_length h
    simp at hlen
  have hpos : 0 < buffer_size := Nat.pos_of_ne_zero hbs
  rw [and_iff_right hpos]
  by_cases hmax : buffer_size ≤ INT_MAX
  · exact (respects_of_accepted ⟨hpos, hmax⟩).trans
      (and_congr_right fun _ => (and_iff_left (.inl hmax)).symm)
  · rw [respects_of_rejected (Nat.lt_of_not_le hmax), or_iff_right hmax]
    refine and_congr_right fun _ => ⟨fun hls => ⟨?_, hls⟩, And.right⟩
    rw [hls]
    exact .inr (.inl (Nat.zero_le 1))

/-- A reminder that fills its arrays. -/
def longReminder : Reminder :=
  ⟨0, List.replicate (USER_LENGTH - 1) 97 ++ [0], List.replicate (MESSAGE_LENGTH - 1) 98 ++ [0]⟩

/-- Thirteen of them leave the buffer of `recorder_show`. -/
theorem long_list : ¬ Respects (List.replicate 13 longReminder) 2048 none := by
  rintro ⟨d, h⟩
  have hread := printLoop_readable h
  rw [print_messages_eq (by decide) (by decide) hread, if_neg (by decide +kernel)] at h
  cases h

end KernelBasecamp.Reminders
