/-
  The records linked into `messages`.

  `messanger_store` links the record before it has parsed anything, cuts the text off without a
  terminator, and stores the result of `kthread_run` unseen. So a line that does not parse
  leaves a record of old memory in the list (`malformed_line`), a text of 64 bytes is not
  terminated, and a failed `kthread_run` leaves an error pointer that `messanger_exit` takes for
  a thread.

  * `kept_iff`: a call keeps the records `Proper`, and the list if its text does not parse,
    exactly when it is `Accepted`.
  * `linked_run`: over every sequence of calls.
-/
import KernelBasecamp.Messanger.Store

namespace KernelBasecamp.Messanger

open Lib Lib.CInt Lib.CMem Lib.Sscanf

/-- A record set from its own line, with a terminated text, and with a task that is null or the
    thread made for it. -/
structure Proper (threads : List Nat) (r : Record) : Prop where
  numbers : ∃ delay total, scanNumbers r.line = some [delay, total] ∧
    r.message.delay = toUnsigned delay ∧ r.message.total = toUnsigned total
  terminated : r.message.text.length = MAX_MESSAGE_LENGTH ∧ 0 ∈ r.message.text
  text : ∃ p, afterSecond 32 r.line = some p ∧ string r.message.text = string (r.line.drop p)
  task : r.message.task = .null ∨
    ∃ thread, r.message.task = .handle thread ∧ threads[thread]? = some r.id

def Linked (s : State) : Prop := ∀ r ∈ s.messages, Proper s.threads r

/-- The text parses. -/
def Parses (buf : List UInt8) : Prop := ∃ delay total, scanNumbers buf = some [delay, total]

/-- The call goes through, every record is proper, and a text that does not parse has changed
    nothing in the list. -/
def Kept (s : State) (c : Call) : Prop :=
  ∃ s', step s c = some s' ∧ Linked s' ∧
    ∀ buf old err, c = .store buf old err → ¬ Parses buf → s'.messages = s.messages

/-- The text has two numbers and, behind its second space, fewer than 64 bytes, and
    `kthread_run` succeeds. -/
def Call.Accepted : Call → Prop
  | .store buf _ err => Parses buf ∧ err = none ∧
      ∃ p k, afterSecond 32 buf = some p ∧ strlen (buf.drop p) = some k ∧ k < MAX_MESSAGE_LENGTH
  | .finish _ => True

theorem Proper.mono {threads : List Nat} {r : Record} (h : Proper threads r) (more : List Nat) :
    Proper (threads ++ more) r := by
  refine ⟨h.numbers, h.terminated, h.text, ?_⟩
  rcases h.task with hnull | ⟨thread, hthread, hr⟩
  · exact Or.inl hnull
  · refine Or.inr ⟨thread, hthread, ?_⟩
    rw [List.getElem?_append_left (List.getElem?_eq_some_iff.mp hr).1, hr]

/-- The end of a thread sets a task to null and changes no more. -/
theorem linked_finish {s : State} (h : Linked s) (thread : Nat) : Linked (func_end s thread) := by
  intro r hr
  obtain ⟨q, hq, rfl⟩ := List.mem_map.mp hr
  have hq := h q hq
  split
  · exact ⟨hq.numbers, hq.terminated, hq.text, Or.inl rfl⟩
  · exact hq

/-- A text of which `strncpy` keeps the terminator is the whole string. -/
theorem string_strncpy {t : List UInt8} (ht : 0 ∉ t) {n : Nat} (hn : t.length < n)
    (d : List UInt8) :
    string (t ++ List.replicate (n - t.length) 0) = string (t ++ 0 :: d) := by
  unfold string
  obtain ⟨k, hk⟩ := Nat.exists_eq_add_of_lt hn
  rw [hk, Nat.add_assoc, Nat.add_sub_cancel_left, List.replicate_succ, takeWhile_append_nul ht,
    takeWhile_append_nul ht]

theorem scanNumbers_length {buf : List UInt8} {numbers : List Int}
    (h : scanNumbers buf = some numbers) : numbers.length = 2 ↔ Parses buf := by
  unfold Parses
  rw [h]
  constructor
  · intro hlen
    obtain ⟨delay, total, rfl⟩ := List.length_eq_two.mp hlen
    exact ⟨delay, total, rfl⟩
  · rintro ⟨delay, total, heq⟩
    cases heq
    rfl

/-! ## One call -/

section

variable {s : State} {buf : List UInt8} {old : Message} {err : Option UInt64}

theorem store_unparsed {numbers : List Int} (hnumbers : scanNumbers buf = some numbers)
    (hlen : numbers.length ≠ 2) : messanger_store s buf old err = some { s with
      messages := ⟨s.created, buf, old.setNumbers numbers⟩ :: s.messages
      created := s.created + 1 } := by
  unfold messanger_store
  rw [hnumbers, Option.bind_eq_bind, Option.bind_some]
  exact if_pos hlen

theorem store_parsed {delay total : Int} (hnumbers : scanNumbers buf = some [delay, total]) :
    messanger_store s buf old err = (afterSecond 32 buf).bind fun p =>
      (strncpy (buf.drop p) MAX_MESSAGE_LENGTH).bind fun text => some {
        messages := ⟨s.created, buf, ⟨toUnsigned delay, toUnsigned total, text,
          (kthread_run s err).1⟩⟩ :: s.messages
        created := s.created + 1
        threads := (kthread_run s err).2
        index := s.index + 1 } := by
  unfold messanger_store
  rw [hnumbers, Option.bind_eq_bind, Option.bind_some]
  exact if_neg (not_not.mpr rfl)

/-- An accepted call adds a proper record. -/
theorem kept_of_accepted (hs : Linked s) (hc : (Call.store buf old err).Accepted) :
    Kept s (.store buf old err) := by
  obtain ⟨hparses, rfl, p, k, hp, hk, hlt⟩ := hc
  obtain ⟨delay, total, hnumbers⟩ := hparses
  obtain ⟨t, d, hdrop, ht, rfl⟩ := strlen_eq_some hk
  have hcopy := strncpy_append ht hlt d
  have hstore : messanger_store s buf old none = _ := store_parsed hnumbers
  rw [hp, Option.bind_some, hdrop, hcopy, Option.bind_some] at hstore
  refine ⟨_, hstore, fun r hr => ?_, fun b _ _ hb hnot => ?_⟩
  · rcases List.mem_cons.mp hr with rfl | hr
    · have hlen : (t ++ List.replicate (MAX_MESSAGE_LENGTH - t.length) (0 : UInt8)).length =
          MAX_MESSAGE_LENGTH := by
        rw [List.length_append, List.length_replicate]
        omega
      have hnul : (0 : UInt8) ∈ t ++ List.replicate (MAX_MESSAGE_LENGTH - t.length) 0 :=
        List.mem_append_right _ (List.mem_replicate.mpr ⟨by omega, rfl⟩)
      refine ⟨⟨delay, total, hnumbers, rfl, rfl⟩, ⟨hlen, hnul⟩, ⟨p, hp, ?_⟩,
        Or.inr ⟨_, rfl, List.getElem?_concat_length⟩⟩
      rw [hdrop]
      exact string_strncpy ht hlt d
    · exact (hs r hr).mono _
  · cases hb
    exact absurd ⟨delay, total, hnumbers⟩ hnot

/-- A call that keeps the records in order has been an accepted one. -/
theorem accepted_of_kept (h : Kept s (.store buf old err)) :
    (Call.store buf old err).Accepted := by
  obtain ⟨s', hstore, hlinked, hunchanged⟩ := h
  change messanger_store s buf old err = some s' at hstore
  have hparses : Parses buf := by
    by_contra hnot
    have hsame := hunchanged buf old err rfl hnot
    obtain ⟨numbers, hnumbers, -⟩ := Option.bind_eq_some_iff.mp hstore
    rw [store_unparsed hnumbers (mt (scanNumbers_length hnumbers).mp hnot)] at hstore
    cases hstore
    exact List.cons_ne_self _ _ hsame
  obtain ⟨delay, total, hnumbers⟩ := hparses
  rw [store_parsed hnumbers] at hstore
  obtain ⟨p, hp, hstore⟩ := Option.bind_eq_some_iff.mp hstore
  obtain ⟨text, htext, hstore⟩ := Option.bind_eq_some_iff.mp hstore
  cases hstore
  have hproper := hlinked _ List.mem_cons_self
  obtain ⟨t, d, hdrop, ht, hlt⟩ := (strncpy_terminated htext).2 hproper.terminated.2
  have herr : err = none := by
    cases err with
    | none => rfl
    | some bits =>
        rcases hproper.task with hnull | ⟨thread, hthread, -⟩
        · cases hnull
        · cases hthread
  refine ⟨⟨delay, total, hnumbers⟩, herr, p, t.length, hp, ?_, hlt⟩
  rw [hdrop]
  exact strlen_append ht d

end

theorem kept_iff {s : State} (hs : Linked s) (c : Call) : Kept s c ↔ c.Accepted := by
  cases c with
  | store buf old err => exact ⟨accepted_of_kept, kept_of_accepted hs⟩
  | finish thread =>
      exact iff_of_true ⟨_, rfl, linked_finish hs thread, (fun _ _ _ h => nomatch h)⟩ trivial

/-! ## Sequences of calls -/

/-- Accepted calls go through and leave every linked record proper; and the next call keeps it
    so if and only if it is accepted too. -/
theorem linked_run {calls : List Call} (h : ∀ c ∈ calls, c.Accepted) :
    ∃ s, run step State.init calls = some s ∧ Linked s ∧ ∀ c, Kept s c ↔ c.Accepted := by
  have hrun : ∀ s, Linked s → ∃ e, run step s calls = some e ∧ Linked e := by
    induction calls with
    | nil => exact fun s hs => ⟨s, rfl, hs⟩
    | cons c calls ih =>
        intro s hs
        obtain ⟨s', hstep, hlinked, -⟩ := (kept_iff hs c).mpr (h c List.mem_cons_self)
        obtain ⟨e, he, hgood⟩ := ih (fun c hc => h c (List.mem_cons_of_mem _ hc)) s' hlinked
        refine ⟨e, ?_, hgood⟩
        rw [run_cons, hstep, Option.bind_some, he]
  obtain ⟨e, he, hgood⟩ := hrun State.init fun r hr => nomatch hr
  exact ⟨e, he, hgood, kept_iff hgood⟩

/-- The line "5 60 hi", and the end of its thread. -/
theorem linked_run_one : ∃ s, run step State.init
    [.store [53, 32, 54, 48, 32, 104, 105, 10, 0] ⟨7, 7, [], .other 7⟩ none, .finish 0] = some s ∧
    Linked s := by
  have haccepted : ∀ c ∈ [Call.store [53, 32, 54, 48, 32, 104, 105, 10, 0] ⟨7, 7, [], .other 7⟩
      none, .finish 0], c.Accepted := by
    intro c hc
    rcases List.mem_cons.mp hc with rfl | hc
    · exact ⟨⟨5, 60, by decide⟩, rfl, 5, 3, by decide, by decide, by decide⟩
    · rw [List.mem_singleton.mp hc]
      trivial
  obtain ⟨s, hs, hlinked, -⟩ := linked_run haccepted
  exact ⟨s, hs, hlinked⟩

/-- The line "x" leaves a record of old memory in the list. -/
theorem malformed_line : ¬ ∀ (calls : List Call) (s : State),
    run step State.init calls = some s → Linked s := by
  intro h
  have hlinked := h [.store [120, 0] ⟨7, 7, [], .other 7⟩ none]
    ⟨[⟨0, [120, 0], ⟨7, 7, [], .other 7⟩⟩], 1, [], 0⟩ (by decide)
  obtain ⟨delay, total, hnumbers, -⟩ := (hlinked _ List.mem_cons_self).numbers
  have hnone : scanNumbers [120, 0] = some [] := by decide
  rw [hnone] at hnumbers
  cases hnumbers

end KernelBasecamp.Messanger
