/-
  The timer of the reminder module (reminder.c, `reminder_init` and `timer_callback`) and how
  late a reminder can be.

  `hr_timer` is started one second from load, and its callback moves it on with
  `hrtimer_forward` by whole seconds. What the kernel's function does is a parameter; the proof
  asks only that it does not move the timer further than it has to (`hforward`).

  A reminder that a tick leaves in the list is later than the reading the callback took
  first, and the timer is set at most a second behind that reading. A reminder stored between
  two ticks is not earlier than the clock, which is at most a second before the timer. So the
  timer is never set more than a second behind a pending reminder (`Scheduled`).

  * `delivered_on_time`: every reminder stored is pending or delivered, and it is delivered not
    before its time and at most one second, and the latency of the handler, after it.
-/
import KernelBasecamp.Reminders.Order

namespace KernelBasecamp.Reminders

open Lib Lib.CInt Lib.KeyedList

structure Timed where
  history : History
  /-- when `hr_timer` expires -/
  expires : Int

/-- `reminder_init` at the time `now`: `hrtimer_start(&hr_timer, ktime_set(1, 0), ..._REL)`. -/
def reminder_init (now : Int) : Timed := ⟨History.init, now + ktime_set 1⟩

/-- A tick is a run of `timer_callback`. Its first reading is `currtime`. -/
def Timed.step (ktime_get : Nat → Int) (hrtimer_forward : Int → Int → Int → Int) (s : Timed)
    (c : Call) : Option Timed :=
  (History.step ktime_get s.history c).map fun h =>
    match c with
    | .store .. => ⟨h, s.expires⟩
    | .tick =>
        let currtime := ktime_get s.history.state.reads
        let interval := ktime_set 1
        ⟨h, hrtimer_forward s.expires currtime interval⟩

/-- The readings of a tick are taken at most `latency` after the timer has expired. -/
def Prompt (ktime_get : Nat → Int) (latency : Int) (s : Timed) : Call → Prop
  | .store .. => True
  | .tick => ∀ n < (timer_callback ktime_get s.history.state).reads,
      ktime_get n ≤ s.expires + latency

instance (ktime_get : Nat → Int) (latency : Int) (s : Timed) :
    ∀ c, Decidable (Prompt ktime_get latency s c)
  | .store .. => inferInstanceAs (Decidable True)
  | .tick => inferInstanceAs (Decidable (∀ n < (timer_callback ktime_get s.history.state).reads,
      ktime_get n ≤ s.expires + latency))

/-- The timeouts are right and the handler is not late. -/
def InTime (ktime_get : Nat → Int) (latency : Int) (s : Timed) (c : Call) : Prop :=
  Timely ktime_get s.history c ∧ Prompt ktime_get latency s c

instance (ktime_get : Nat → Int) (latency : Int) (s : Timed) (c : Call) :
    Decidable (InTime ktime_get latency s c) :=
  inferInstanceAs (Decidable (Timely ktime_get s.history c ∧ Prompt ktime_get latency s c))

structure Scheduled (ktime_get : Nat → Int) (latency : Int) (s : Timed) : Prop where
  chronicle : Chronicle ktime_get s.history
  /-- the timer is at most a second ahead of the clock -/
  soon : ∀ n, s.history.state.reads ≤ n → s.expires ≤ ktime_get n + NSEC_PER_SEC
  pending : ∀ r ∈ s.history.state.reminders, s.expires ≤ r.trigger_time + NSEC_PER_SEC
  delivered : ∀ x ∈ s.history.state.delivered,
    x.1.trigger_time ≤ x.2 ∧ x.2 ≤ x.1.trigger_time + NSEC_PER_SEC + latency

theorem ktime_set_one : ktime_set 1 = NSEC_PER_SEC := by decide

theorem Scheduled.sorted {ktime_get : Nat → Int} {latency : Int} {s : Timed}
    (h : Scheduled ktime_get latency s) : Sorted s.history.state.reminders :=
  (List.pairwise_append.mp h.chronicle.sorted).2.1

/-- The reminder a store adds is not earlier than the clock. -/
theorem stored_not_past {ktime_get : Nat → Int} {h : History} {buf old u : List UInt8}
    {count : Nat} {t : Int} {r : Reminder} (htime : Timely ktime_get h (.store buf count old))
    (hline : scanLine buf = some (some (u, t)))
    (htrigger : r.trigger_time = wrap 64 (ktime_get h.state.reads + ktime_set t)) :
    ktime_get h.state.reads ≤ r.trigger_time := by
  obtain ⟨ht, hrange⟩ := htime (u, t) (by rw [hline]; rfl)
  have hnonneg := ktime_set_nonneg ht
  rw [htrigger, wrap_of_inRange (by decide) hrange]
  omega

section

variable {ktime_get : Nat → Int} {hrtimer_forward : Int → Int → Int → Int} {latency : Int}

theorem scheduled_store {s : Timed} {h' : History} {buf old : List UInt8} {count : Nat}
    (hclock : Monotone ktime_get) (h : Scheduled ktime_get latency s)
    (htime : Timely ktime_get s.history (.store buf count old))
    (hs : History.step ktime_get s.history (.store buf count old) = some h') :
    Scheduled ktime_get latency ⟨h', s.expires⟩ := by
  have hchronicle := chronicle_step hclock h.chronicle htime hs
  obtain ⟨⟨s', added⟩, hstore, rfl⟩ := Option.map_eq_some_iff.mp hs
  rcases recorder_store_cases hstore with ⟨rfl, rfl⟩ | ⟨u, t, r, hline, rfl, htrigger, rfl⟩
  · exact ⟨hchronicle, h.soon, h.pending, h.delivered⟩
  · refine ⟨hchronicle, fun n hn => h.soon n (Nat.le_of_succ_le hn), fun q hq => ?_,
      h.delivered⟩
    obtain ⟨as, bs, hsplit, hadd, -⟩ := add_message_split s.history.state.reminders r
    change q ∈ add_message s.history.state.reminders r at hq
    rw [hadd] at hq
    rcases List.mem_append.mp hq with hold | hrest
    · exact h.pending q (hsplit ▸ List.mem_append_left bs hold)
    · rcases List.mem_cons.mp hrest with rfl | hold
      · have hsoon := h.soon _ (Nat.le_refl _)
        have hlater := stored_not_past htime hline htrigger
        change s.expires ≤ _
        omega
      · exact h.pending q (hsplit ▸ List.mem_append_right as hold)

theorem scheduled_tick {s : Timed} {h' : History} (hclock : Monotone ktime_get)
    (hforward : ∀ expires now interval, 0 < interval →
      hrtimer_forward expires now interval ≤ max expires (now + interval))
    (h : Scheduled ktime_get latency s) (hprompt : Prompt ktime_get latency s .tick)
    (hs : History.step ktime_get s.history .tick = some h') :
    Scheduled ktime_get latency
      ⟨h', hrtimer_forward s.expires (ktime_get s.history.state.reads) (ktime_set 1)⟩ := by
  have hchronicle := chronicle_step hclock h.chronicle (c := .tick) trivial hs
  cases hs
  obtain ⟨hreads, hdue⟩ :=
    trigger_messages_due ktime_get (s.history.state.reads + 1) s.history.state.reminders
  have hnext := hforward s.expires (ktime_get s.history.state.reads) (ktime_set 1) (by decide)
  rw [ktime_set_one] at hnext ⊢
  have hsplit := trigger_messages_split ktime_get (s.history.state.reads + 1)
    s.history.state.reminders
  refine ⟨hchronicle, fun n hn => ?_, fun r hr => ?_, fun x hx => ?_⟩
  · have hle : s.history.state.reads ≤ n := Nat.le_of_succ_le (hreads.trans hn)
    have hlater := hclock hle
    have hsoon := h.soon n hle
    change hrtimer_forward _ _ _ ≤ _
    omega
  · -- what the tick leaves is later than its first reading
    have hleft := trigger_messages_left hclock (s.history.state.reads + 1) h.sorted r hr
    have hfirst := hclock (Nat.le_add_right s.history.state.reads 1)
    have hold := h.pending r (hsplit ▸ List.mem_append_right _ hr)
    change hrtimer_forward _ _ _ ≤ _
    omega
  · rcases List.mem_append.mp hx with hold | hnew
    · exact h.delivered x hold
    · obtain ⟨hle, m, -, hlt, hm⟩ := hdue x hnew
      have hlate := hprompt m hlt
      have hpending := h.pending x.1
        (hsplit ▸ List.mem_append_left _ (List.mem_map_of_mem hnew))
      refine ⟨hle, ?_⟩
      omega

theorem scheduled_step {s s' : Timed} {c : Call} (hclock : Monotone ktime_get)
    (hforward : ∀ expires now interval, 0 < interval →
      hrtimer_forward expires now interval ≤ max expires (now + interval))
    (h : Scheduled ktime_get latency s) (hC : InTime ktime_get latency s c)
    (hs : Timed.step ktime_get hrtimer_forward s c = some s') :
    Scheduled ktime_get latency s' := by
  obtain ⟨h', hstep, rfl⟩ := Option.map_eq_some_iff.mp hs
  cases c with
  | store buf count old => exact scheduled_store hclock h hC.1 hstep
  | tick => exact scheduled_tick hclock hforward h hC.2 hstep

/-- With a clock that does not go back, timeouts that are not negative and do not overflow,
    and a handler that is never more than `latency` late: every reminder stored since load has
    been delivered or is pending, once each; what has been delivered was delivered when it was
    due and at most a second and the latency later; and the timer expires at most a second
    behind each pending reminder. -/
theorem delivered_on_time (hclock : Monotone ktime_get)
    (hforward : ∀ expires now interval, 0 < interval →
      hrtimer_forward expires now interval ≤ max expires (now + interval))
    {now : Int} (hnow : now ≤ ktime_get 0) {calls : List Call} {s : Timed}
    (htime : AllSteps (Timed.step ktime_get hrtimer_forward) (InTime ktime_get latency)
      (reminder_init now) calls)
    (hrun : run (Timed.step ktime_get hrtimer_forward) (reminder_init now) calls = some s) :
    (s.history.state.fired ++ s.history.state.reminders).Perm s.history.stored ∧
    (∀ x ∈ s.history.state.delivered,
      x.1.trigger_time ≤ x.2 ∧ x.2 ≤ x.1.trigger_time + NSEC_PER_SEC + latency) ∧
    ∀ r ∈ s.history.state.reminders, s.expires ≤ r.trigger_time + NSEC_PER_SEC := by
  have hinit : Scheduled ktime_get latency (reminder_init now) := by
    refine ⟨⟨List.Pairwise.nil, fun _ => rfl, fun r hr => nomatch hr⟩, fun n _ => ?_,
      fun r hr => (nomatch hr), fun x hx => nomatch hx⟩
    have hlater := hclock (Nat.zero_le n)
    change now + ktime_set 1 ≤ _
    rw [ktime_set_one]
    omega
  have h : Scheduled ktime_get latency s :=
    run_induct (fun _ s => Scheduled ktime_get latency s) hinit
      (fun _ _ _ _ h hC hs => scheduled_step hclock hforward h hC hs) htime hrun
  exact ⟨perm_of_filter_key _ h.chronicle.arrival, h.delivered, h.pending⟩

end

/-- The timer at the first of its seconds behind `now`. -/
def forwardSeconds (expires now interval : Int) : Int :=
  if now < expires then expires
  else expires + interval * ((now - expires) / interval + 1)

theorem forwardSeconds_le (expires now interval : Int) (hpos : 0 < interval) :
    forwardSeconds expires now interval ≤ max expires (now + interval) := by
  unfold forwardSeconds
  split
  · exact le_max_left _ _
  · refine le_max_of_le_right ?_
    have hfloor := Int.mul_ediv_self_le (x := now - expires) (k := interval) (by omega)
    rw [Int.mul_add, Int.mul_one]
    omega

/-- The line "b 0 y" is stored at the reading 0, and a tick follows a second later. -/
theorem delivered_on_time_second :
    ∃ s, run (Timed.step (fun n => n * NSEC_PER_SEC) forwardSeconds) (reminder_init 0)
      [.store [98, 32, 48, 32, 121, 10, 0] 6 [], .tick] = some s ∧
    ∀ x ∈ s.history.state.delivered,
      x.1.trigger_time ≤ x.2 ∧ x.2 ≤ x.1.trigger_time + NSEC_PER_SEC + NSEC_PER_SEC := by
  have hclock : Monotone fun n : Nat => (n : Int) * NSEC_PER_SEC := fun _ _ h =>
    Int.mul_le_mul_of_nonneg_right (Int.ofNat_le.mpr h) (by decide)
  obtain ⟨s, hrun⟩ := Option.isSome_iff_exists.mp (by decide +kernel :
    (run (Timed.step (fun n => n * NSEC_PER_SEC) forwardSeconds) (reminder_init 0)
      [.store [98, 32, 48, 32, 121, 10, 0] 6 [], .tick]).isSome = true)
  exact ⟨s, hrun, (delivered_on_time hclock forwardSeconds_le (by decide) (by decide +kernel)
    hrun).2.1⟩

end KernelBasecamp.Reminders
