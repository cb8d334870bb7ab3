/-
  Several clients on one currency file.

  The flags that end a read and a write are kept for the file and not for the client: every
  second write call returns 0 without a look at its bytes, and the read call after one that
  delivered the text returns 0, whoever makes it. So a client's amount is lost when its write
  comes second (`second_write`), and a client that reads between another one's text and its 0
  gets a 0 for its text.

  A write that is looked at sets its integer if that fits an int and the text ends it within the
  16 bytes that are copied; else what lies behind the text in the client's memory has its part in
  the amount.

  * `heard_iff`: in every run whose steps are `Undisturbed`, each write of an integer is taken over
    and each 0 comes after exactly one conversion text, for every client; and these are the only
    runs in which this is so whatever lies behind the texts written.
-/
import Mathlib
import KernelBasecamp.Currency.Files
import KernelBasecamp.Currency.Written

namespace KernelBasecamp.Currency

open Lib Lib.CInt Lib.CMem Lib.Sscanf

/-- The module with the clients of one file. -/
structure Clients (κ : Type) where
  dev : State
  /-- the conversion texts that a client has received since its last 0 -/
  texts : κ → Nat
  /-- the client of the last read call, if that call delivered the text -/
  last : Option κ

/-- A write is given with its text and what lies behind that in the client's memory. -/
inductive Call (κ : Type) where
  | write (c : κ) (text behind : List UInt8) (left : Nat)
  | read (c : κ)
  | rate (buf : List UInt8)

/-- The same call, with something else behind the text. -/
def Call.followed {κ : Type} (x : List UInt8) : Call κ → Call κ
  | .write c text _ left => .write c text x left
  | call => call

/-- The integer at the head of a text, as `%d` reads it, of any size. -/
def spoken (text : List UInt8) : Option Int := (scanInt (text ++ [0])).join.map Prod.fst

/-- A complete copy of the bytes asked for, which are BUFFER_SIZE ones. -/
def Complete (text behind : List UInt8) (left : Nat) : Prop :=
  left = 0 ∧ BUFFER_SIZE ≤ (text ++ behind).length

variable {κ : Type} [DecidableEq κ]

/-- The freshly loaded module; nobody has called yet. -/
def Clients.start (m : List UInt8) : Clients κ := ⟨State.loaded m, fun _ => 0, none⟩

/-- A call on the file `f`, with complete copies to the readers. -/
def Clients.step (f : File) (s : Clients κ) : Call κ → Option (Clients κ)
  | .write _ text behind left =>
      (proc_write f s.dev (text ++ behind) text.length left).map fun r => { s with dev := r.1 }
  | .read c =>
      (proc_read f s.dev 0).map fun r =>
        if r.2.1 = 0 then ⟨r.1, Function.update s.texts c 0, none⟩
        else ⟨r.1, Function.update s.texts c (s.texts c + 1), some c⟩
  | .rate buf => (exchange_store s.dev buf).map fun dev => { s with dev }

/-- The call is not swallowed: a write sets the amount to its integer; a read delivers the
    conversion, or it returns 0 to a client that has just had it once. -/
def Heard (f : File) (s : Clients κ) : Call κ → Prop
  | .write _ text behind left => Complete text behind left → ∀ n ∈ spoken text,
      ∃ r, proc_write f s.dev (text ++ behind) text.length left = some r ∧ (r.1.view f).amount = n
  | .read c => ∀ r ∈ proc_read f s.dev 0,
      if r.2.1 = 0 then s.texts c = 1
      else (converted f (s.dev.view f).amount (s.dev.view f).rate).map hundredthsText =
        some r.2.2
  | .rate _ => True

/-- A write of an integer repeats the amount, if it finds the write flag set; if it finds it clear,
    the integer fits an int and is ended by a byte of the text within the buffer. And no client
    reads between another one's text and its next read. -/
def Undisturbed (f : File) (s : Clients κ) : Call κ → Prop
  | .write _ text _ left => left = 0 → ∀ n ∈ spoken text,
      if (s.dev.view f).write then (s.dev.view f).amount = n
      else InRange 32 n ∧ Decided (text.take BUFFER_SIZE)
  | .read c => s.last = none ∨ s.last = some c
  | .rate _ => True

instance (w : List UInt8) : Decidable (Decided w) :=
  inferInstanceAs (Decidable (¬ ∀ c ∈ numeral w, isdigit c))

instance (f : File) (s : Clients κ) : ∀ call, Decidable (Undisturbed f s call)
  | .write _ text _ left => inferInstanceAs (Decidable (left = 0 → ∀ n ∈ spoken text,
      if (s.dev.view f).write then (s.dev.view f).amount = n
      else InRange 32 n ∧ Decided (text.take BUFFER_SIZE)))
  | .read c => inferInstanceAs (Decidable (s.last = none ∨ s.last = some c))
  | .rate _ => inferInstanceAs (Decidable True)

/-- The read flag is set while a client is between its text and its 0, and each client has had
    what it is due. -/
structure Served (f : File) (s : Clients κ) : Prop where
  buffer : s.dev.proc_buffer.length = BUFFER_SIZE
  flag : (s.dev.view f).read = s.last.isSome
  texts : ∀ c, s.texts c = if s.last = some c then 1 else 0

theorem served_start (f : File) {m : List UInt8} (hm : m.length = BUFFER_SIZE) :
    Served f (Clients.start m : Clients κ) := by
  refine ⟨hm, ?_, fun c => rfl⟩
  cases f <;> rfl

/-! ## Writes -/

/-- With the write flag set the bytes are not looked at. -/
theorem proc_write_set {f : File} {s : State} (h : (s.view f).write = true) (buffer : List UInt8)
    (length left : Nat) : ∃ r, proc_write f s buffer length left = some r ∧
      (r.1.view f).amount = (s.view f).amount := by
  have hwrite : proc_write f s buffer length left =
      some (s.set f.source { s.get f.source with write := false }, 0) := by
    cases f <;> exact if_pos h
  refine ⟨_, hwrite, ?_⟩
  unfold State.view
  rw [State.get_set]

/-- With the write flag clear the amount is that of the sixteen bytes. -/
theorem proc_write_clear {f : File} {s : State} (h : (s.view f).write = false)
    {buffer : List UInt8} (hbuffer : BUFFER_SIZE ≤ buffer.length) (length : Nat) :
    (proc_write f s buffer length 0).map (fun r => (r.1.view f).amount) =
      (scanInt (copied buffer 0)).map (amountOf (s.view f).amount) := by
  have hwrite : proc_write f s buffer length 0 = exchange_write s buffer length 0 f.source := by
    cases f <;> rfl
  rw [hwrite]
  exact amountAfter_eq h ⟨Nat.zero_le _, hbuffer⟩ length

theorem copied_zero (text behind : List UInt8) : copied (text ++ behind) 0 =
    text.take BUFFER_SIZE ++ behind.take (BUFFER_SIZE - text.length) := by
  unfold copied
  rw [Nat.sub_zero, List.take_append, List.replicate_zero, List.append_nil]

/-- A text that ends its integer within the buffer has it read, whatever lies behind. -/
theorem scanInt_decided {text : List UInt8} {n : Int} (hn : spoken text = some n)
    (htext : Decided (text.take BUFFER_SIZE)) (behind : List UInt8) :
    ∃ next, scanInt (copied (text ++ behind) 0) = some (some (n, next)) := by
  obtain ⟨r, hr⟩ := Option.ne_none_iff_exists'.mp (mt scanInt_eq_none_iff.mp htext)
  have hwhole := scanInt_append hr (text.drop BUFFER_SIZE ++ [0])
  rw [← List.append_assoc, List.take_append_drop] at hwhole
  unfold spoken at hn
  rw [hwhole, Option.join_some, Option.map_map] at hn
  obtain ⟨⟨k, next⟩, rfl, hk⟩ := Option.map_eq_some_iff.mp hn
  obtain rfl : k = n := hk
  rw [copied_zero, scanInt_append hr]
  exact ⟨_, rfl⟩

/-- Digits behind any other text go on to the end of the buffer. -/
theorem scanInt_undecided {text : List UInt8} (htext : ¬ Decided (text.take BUFFER_SIZE)) :
    scanInt (copied (text ++ List.replicate BUFFER_SIZE 48) 0) = none := by
  have hdigits : ∀ c ∈ numeral (text.take BUFFER_SIZE), isdigit c := not_not.mp htext
  rw [copied_zero, List.take_replicate, Nat.min_eq_left (Nat.sub_le _ _), scanInt_eq_none_iff]
  cases BUFFER_SIZE - text.length with
  | zero =>
      rw [List.replicate_zero, List.append_nil]
      exact hdigits
  | succ k =>
      rw [List.replicate_succ, (numeral_append_cons _ (by decide) _).2, ← List.replicate_succ]
      intro c hc
      rcases List.mem_append.mp hc with hc | hc
      · exact hdigits c hc
      · rw [(List.mem_replicate.mp hc).2]
        decide

omit [DecidableEq κ] in
/-- A write is taken over whatever lies behind its text. -/
theorem heard_write_iff {f : File} {s : Clients κ} {c : κ} {text behind : List UInt8}
    {left : Nat} : (∀ x, Heard f s (.write c text x left)) ↔
      Undisturbed f s (.write c text behind left) := by
  unfold Heard Undisturbed
  constructor
  · rintro h rfl n hn
    have hlong : BUFFER_SIZE ≤ (text ++ List.replicate BUFFER_SIZE (48 : UInt8)).length := by
      rw [List.length_append, List.length_replicate]
      exact Nat.le_add_left _ _
    obtain ⟨r, hr, hamount⟩ := h _ ⟨rfl, hlong⟩ n hn
    cases hflag : (s.dev.view f).write with
    | true =>
        obtain ⟨q, hq, hsame⟩ := proc_write_set hflag
          (text ++ List.replicate BUFFER_SIZE 48) text.length 0
        obtain rfl : q = r := Option.some.inj (hq.symm.trans hr)
        rw [if_pos rfl, ← hsame, hamount]
    | false =>
        have hscan := proc_write_clear hflag hlong text.length
        rw [hr, Option.map_some, hamount] at hscan
        have hdecided : Decided (text.take BUFFER_SIZE) := by
          by_contra htext
          rw [scanInt_undecided htext, Option.map_none] at hscan
          cases hscan
        obtain ⟨next, hnext⟩ := scanInt_decided hn hdecided (List.replicate BUFFER_SIZE 48)
        rw [hnext, Option.map_some] at hscan
        have hwrap : n = wrap 32 n := Option.some.inj hscan
        rw [if_neg Bool.false_ne_true]
        exact ⟨hwrap ▸ inRange_wrap (by decide) n, hdecided⟩
  · intro h x hcomplete n hn
    obtain ⟨rfl, hlong⟩ := hcomplete
    have hcase := h rfl n hn
    cases hflag : (s.dev.view f).write with
    | true =>
        rw [hflag, if_pos rfl] at hcase
        rw [← hcase]
        exact proc_write_set hflag (text ++ x) text.length 0
    | false =>
        rw [hflag, if_neg Bool.false_ne_true] at hcase
        obtain ⟨next, hnext⟩ := scanInt_decided hn hcase.2 x
        have hscan := proc_write_clear hflag hlong text.length
        rw [hnext, Option.map_some] at hscan
        obtain ⟨r, hr, hamount⟩ := Option.map_eq_some_iff.mp hscan
        exact ⟨r, hr, hamount.trans (wrap_of_inRange (by decide) hcase.1)⟩

/-! ## Reads -/

/-- A read answers 0 if the flag is set, else with the conversion. -/
theorem proc_read_cases {f : File} {s t : State} (hbuf : s.proc_buffer.length = BUFFER_SIZE)
    {len : Nat} {bytes : List UInt8} (h : proc_read f s 0 = some (t, len, bytes)) :
    (t.view f).read = !(s.view f).read ∧ (len = 0 ↔ (s.view f).read = true) ∧
      ((s.view f).read = false →
        (converted f (s.view f).amount (s.view f).rate).map hundredthsText = some bytes) := by
  refine ⟨?_, ?_⟩
  · rw [(proc_read_view h f).2]
    unfold View.next
    dsimp only
    rw [if_neg (not_not.mpr rfl)]
  · have hanswer := proc_read_eq hbuf f
    rw [h] at hanswer
    obtain ⟨n, hn, heq⟩ := Option.map_eq_some_iff.mp hanswer.symm
    rw [hn]
    cases hread : (s.view f).read with
    | true =>
        rw [hread] at heq
        cases heq
        exact ⟨iff_of_true rfl rfl, (fun hfalse => nomatch hfalse)⟩
    | false =>
        rw [hread] at heq
        cases heq
        refine ⟨iff_of_false ?_ Bool.false_ne_true, fun _ => rfl⟩
        unfold hundredthsText amountText
        rw [List.length_append]
        exact Nat.succ_ne_zero _

theorem heard_read_iff {f : File} {s s' : Clients κ} (hs : Served f s) {c : κ}
    (hstep : Clients.step f s (.read c) = some s') :
    Heard f s (.read c) ↔ Undisturbed f s (.read c) := by
  obtain ⟨⟨t, len, bytes⟩, hr, -⟩ := Option.map_eq_some_iff.mp hstep
  obtain ⟨-, hzero, htext⟩ := proc_read_cases hs.buffer hr
  rw [hs.flag] at hzero htext
  have hheard : Heard f s (.read c) ↔ if len = 0 then s.texts c = 1 else
      (converted f (s.dev.view f).amount (s.dev.view f).rate).map hundredthsText = some bytes := by
    unfold Heard
    rw [hr]
    simp
  rw [hheard, hs.texts c]
  unfold Undisturbed
  cases hlast : s.last with
  | none =>
      rw [hlast] at hzero htext
      rw [if_neg (mt hzero.mp Bool.false_ne_true)]
      exact iff_of_true (htext rfl) (Or.inl rfl)
  | some d =>
      rw [hlast] at hzero
      rw [if_pos (hzero.mpr rfl)]
      by_cases hd : d = c
      · subst hd
        exact iff_of_true (if_pos rfl) (Or.inr rfl)
      · have hne : ¬ some d = some c := fun h => hd (Option.some.inj h)
        rw [if_neg hne]
        exact iff_of_false Nat.zero_ne_one (not_or.mpr ⟨(fun h => nomatch h), hne⟩)

theorem Served.read {f : File} {s s' : Clients κ} (hs : Served f s) {c : κ}
    (hc : Undisturbed f s (.read c)) (hstep : Clients.step f s (.read c) = some s') :
    Served f s' := by
  obtain ⟨⟨t, len, bytes⟩, hr, hs'⟩ := Option.map_eq_some_iff.mp hstep
  obtain ⟨hflip, hzero, -⟩ := proc_read_cases hs.buffer hr
  have hbuf : t.proc_buffer.length = BUFFER_SIZE := (proc_read_view hr f).1.trans hs.buffer
  rw [hs.flag] at hflip hzero
  cases hlast : s.last with
  | none =>
      rw [hlast] at hflip hzero
      rw [if_neg (mt hzero.mp Bool.false_ne_true)] at hs'
      subst hs'
      refine ⟨hbuf, hflip, fun d => ?_⟩
      dsimp only
      have hnone : ∀ e, s.texts e = 0 := fun e => by rw [hs.texts e, hlast]; rfl
      by_cases hd : d = c
      · subst hd
        rw [Function.update_self, hnone, if_pos rfl]
      · have hne : ¬ some c = some d := fun h => hd (Option.some.inj h).symm
        rw [Function.update_of_ne hd, hnone, if_neg hne]
  | some d =>
      have hd : d = c := by
        rcases hc with hn | hc
        · rw [hlast] at hn
          cases hn
        · rw [hlast] at hc
          exact Option.some.inj hc
      subst hd
      rw [hlast] at hflip hzero
      rw [if_pos (hzero.mpr rfl)] at hs'
      subst hs'
      refine ⟨hbuf, hflip, fun e => ?_⟩
      dsimp only
      by_cases he : e = d
      · subst he
        rw [Function.update_self]
        rfl
      · have hne : ¬ s.last = some e := by
          rw [hlast]
          exact fun h => he (Option.some.inj h).symm
        rw [Function.update_of_ne he, hs.texts e, if_neg hne]
        rfl

/-! ## Runs -/

/-- A write or a change of the rate is not noticed by the readers. -/
theorem Served.congr {f : File} {s : Clients κ} (hs : Served f s) {dev : State}
    (hbuf : dev.proc_buffer.length = BUFFER_SIZE)
    (hread : (dev.view f).read = (s.dev.view f).read) : Served f { s with dev } :=
  ⟨hbuf, hread.trans hs.flag, hs.texts⟩

theorem served_step {f : File} {s s' : Clients κ} {call : Call κ} (hs : Served f s)
    (hc : Undisturbed f s call) (hstep : Clients.step f s call = some s') : Served f s' := by
  cases call with
  | read c => exact hs.read hc hstep
  | write c text behind left =>
      obtain ⟨r, hr, rfl⟩ := Option.map_eq_some_iff.mp hstep
      obtain ⟨hbuf, hview⟩ := proc_write_view hs.buffer hr f
      refine hs.congr hbuf ?_
      rw [hview]
      unfold View.next
      dsimp only
      rw [if_neg (not_not.mpr rfl)]
      split <;> rfl
  | rate buf =>
      obtain ⟨dev, hdev, rfl⟩ := Option.map_eq_some_iff.mp hstep
      obtain ⟨hbuf, hview⟩ := view_step (a := .rate buf) hs.buffer hdev f
      refine hs.congr hbuf ?_
      rw [hview]
      unfold View.next
      dsimp only
      split <;> rfl

/-- In a run whose steps are all `Undisturbed` no call is swallowed; and these are the runs whose
    calls are heard whatever lies behind the texts written. -/
theorem heard_iff {m : List UInt8} (hm : m.length = BUFFER_SIZE) (f : File)
    {calls : List (Call κ)} {e : Clients κ}
    (hrun : run (Clients.step f) (Clients.start m) calls = some e) :
    (AllSteps (Clients.step f) (Undisturbed f) (Clients.start m) calls →
      AllSteps (Clients.step f) (Heard f) (Clients.start m) calls) ∧
    (AllSteps (Clients.step f) (fun s call => ∀ x, Heard f s (call.followed x)) (Clients.start m)
        calls ↔
      AllSteps (Clients.step f) (Undisturbed f) (Clients.start m) calls) := by
  have hiff : ∀ (s : Clients κ) (call : Call κ) (s' : Clients κ), Served f s →
      Clients.step f s call = some s' →
      (Undisturbed f s call ↔ ∀ x, Heard f s (call.followed x)) := by
    intro s call s' hs hstep
    cases call with
    | write c text behind left => exact heard_write_iff.symm
    | read c => exact (heard_read_iff hs hstep).symm.trans (forall_const _).symm
    | rate buf => exact (forall_const _).symm
  have hall := (allSteps_iff (Served f) (fun _ _ _ hs hc hstep => served_step hs hc hstep) hiff
    (served_start f hm) hrun).symm
  refine ⟨fun h => ?_, hall⟩
  refine allSteps_imp (fun _ => True) (fun _ _ _ _ _ _ => trivial) (fun s call _ h => ?_) trivial
    (hall.mpr h)
  cases call with
  | write c text behind left => exact h behind
  | read c => exact h []
  | rate buf => trivial

/-- One client writes "5\n" with a digit behind it, another one reads until it gets its 0, and the
    first one repeats its write and writes "-7 ". -/
theorem heard_iff_polite :
    AllSteps (Clients.step .uah_to_eu) (Heard .uah_to_eu)
      (Clients.start (List.replicate 16 0) : Clients Nat)
      [.write 0 [53, 10] (List.replicate 14 51) 0, .read 1, .read 1,
        .write 0 [53, 10] (List.replicate 14 51) 0,
        .write 0 [45, 55, 32] (List.replicate 13 51) 0] := by
  obtain ⟨e, he⟩ := Option.isSome_iff_exists.mp (by decide +kernel :
    (run (Clients.step .uah_to_eu) (Clients.start (List.replicate 16 0) : Clients Nat)
      [.write 0 [53, 10] (List.replicate 14 51) 0, .read 1, .read 1,
        .write 0 [53, 10] (List.replicate 14 51) 0,
        .write 0 [45, 55, 32] (List.replicate 13 51) 0]).isSome = true)
  exact (heard_iff List.length_replicate .uah_to_eu he).1 (by decide +kernel)

/-- "5\n" is written and then "7\n", and the amount stays 5. -/
theorem second_write : ¬ ∀ (f : File) (m : List UInt8) (calls : List (Call Nat))
    (e : Clients Nat), m.length = BUFFER_SIZE →
    run (Clients.step f) (Clients.start m) calls = some e →
    AllSteps (Clients.step f) (Heard f) (Clients.start m) calls := by
  intro hall
  let five : Call Nat := .write 0 [53, 10] (List.replicate 14 0) 0
  let seven : Call Nat := .write 1 [55, 10] (List.replicate 14 0) 0
  obtain ⟨e, he⟩ := Option.isSome_iff_exists.mp (by decide +kernel :
    (run (Clients.step .uah_to_eu) (Clients.start (List.replicate 16 0)) [five, seven]).isSome =
      true)
  obtain ⟨s, hs, -⟩ := Option.bind_eq_some_iff.mp he
  have hheard := ((hall .uah_to_eu _ _ e List.length_replicate he).2 s hs).1
  have hamount : (Clients.step .uah_to_eu (Clients.start (List.replicate 16 0)) five).bind
      (fun s => (proc_write .uah_to_eu s.dev ([55, 10] ++ List.replicate 14 0) 2 0).map fun r =>
        (r.1.view .uah_to_eu).amount) = some 5 := by decide +kernel
  rw [hs, Option.bind_some] at hamount
  obtain ⟨r, hr, hseven⟩ := hheard ⟨rfl, by decide⟩ 7 (by decide +kernel)
  have hfive := congrArg (Option.map fun r => (r.1.view .uah_to_eu).amount) hr
  rw [Option.map_some, hseven] at hfive
  have heq := hamount.symm.trans hfive
  revert heq
  decide

end KernelBasecamp.Currency
