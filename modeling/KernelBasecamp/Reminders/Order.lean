/-
  Reminders are delivered in time order, over whole histories of stores and ticks.

  The delivered reminders followed by the pending ones are one list, `timeline`. A tick moves
  the boundary in it and nothing else (`timeline_tick`). A store inserts into it by trigger
  time, behind equal times (`timeline_store`): the new reminder is not earlier than the clock,
  and everything delivered was due at an earlier reading. So the timeline stays sorted, and for
  every trigger time it lists the reminders in the order in which they were stored.

  * `delivered_in_order`: for every history, with a clock that does not go back and timeouts
    that are not negative and do not overflow.
-/
import KernelBasecamp.Reminders.Delivery
import KernelBasecamp.Reminders.Store

namespace KernelBasecamp.Reminders

open Lib Lib.CInt Lib.KeyedList

/-- The timeout read is not negative, and the trigger time computed from it fits. -/
def Timely (ktime_get : Nat → Int) (h : History) : Call → Prop
  | .store buf _ _ => ∀ line ∈ (scanLine buf).join,
      0 ≤ line.2 ∧ InRange 64 (ktime_get h.state.reads + ktime_set line.2)
  | .tick => True

instance (ktime_get : Nat → Int) (h : History) : ∀ c, Decidable (Timely ktime_get h c)
  | .store buf _ _ => inferInstanceAs (Decidable (∀ line ∈ (scanLine buf).join,
      0 ≤ line.2 ∧ InRange 64 (ktime_get h.state.reads + ktime_set line.2)))
  | .tick => inferInstanceAs (Decidable True)

theorem ktime_set_of_lt {t : Int} (ht : 0 ≤ t) (hlt : t < KTIME_MAX / NSEC_PER_SEC) :
    ktime_set t = t * NSEC_PER_SEC := by
  have hrange : InRange 64 (t * NSEC_PER_SEC) := by
    unfold InRange
    unfold KTIME_MAX NSEC_PER_SEC at *
    omega
  unfold ktime_set
  rw [if_neg (Int.not_le.mpr hlt), wrap_of_inRange (by decide) hrange]

theorem ktime_set_nonneg {t : Int} (ht : 0 ≤ t) : 0 ≤ ktime_set t := by
  by_cases hlt : t < KTIME_MAX / NSEC_PER_SEC
  · rw [ktime_set_of_lt ht hlt]
    exact Int.mul_nonneg ht (by decide)
  · have hset : ktime_set t = KTIME_MAX := if_pos (Int.not_lt.mp hlt)
    rw [hset]
    decide

/-- A store leaves the module alone, or it adds one reminder for the timeout it has read. -/
theorem recorder_store_cases {ktime_get : Nat → Int} {s s' : State} {buf old : List UInt8}
    {count : Nat} {added : Option Reminder}
    (h : recorder_store ktime_get s buf count old = some (s', added)) :
    s' = s ∧ added = none ∨
    ∃ u t r, scanLine buf = some (some (u, t)) ∧ added = some r ∧
      r.trigger_time = wrap 64 (ktime_get s.reads + ktime_set t) ∧
      s' = { s with reminders := add_message s.reminders r, reads := s.reads + 1 } := by
  unfold recorder_store at h
  obtain ⟨line, hline, h⟩ := Option.bind_eq_some_iff.mp h
  cases line with
  | none =>
      cases h
      exact Or.inl ⟨rfl, rfl⟩
  | some ut =>
      obtain ⟨u, t⟩ := ut
      obtain ⟨m_ptr, _, h⟩ := Option.bind_eq_some_iff.mp h
      obtain ⟨newline, _, h⟩ := Option.bind_eq_some_iff.mp h
      obtain ⟨found, _, h⟩ := Option.bind_eq_some_iff.mp h
      obtain ⟨terminator, _, h⟩ := Option.bind_eq_some_iff.mp h
      split at h
      · cases h
        exact Or.inl ⟨rfl, rfl⟩
      · obtain ⟨n, _, h⟩ := Option.bind_eq_some_iff.mp h
        obtain ⟨user, _, h⟩ := Option.bind_eq_some_iff.mp h
        obtain ⟨message, _, h⟩ := Option.bind_eq_some_iff.mp h
        cases h
        exact Or.inr ⟨u, t, _, hline, rfl, rfl, rfl⟩

/-! ## The timeline -/

/-- The reminders delivered and then the pending ones. -/
def State.timeline (s : State) : List Reminder := s.fired ++ s.reminders

structure Chronicle (ktime_get : Nat → Int) (h : History) : Prop where
  sorted : Sorted h.state.timeline
  arrival : ∀ t, h.state.timeline.filter (·.trigger_time = t) =
    h.stored.filter (·.trigger_time = t)
  /-- what has been delivered was due before every reading still to come -/
  past : ∀ r ∈ h.state.fired, ∀ n, h.state.reads ≤ n → r.trigger_time ≤ ktime_get n

theorem timeline_tick (ktime_get : Nat → Int) (s : State) :
    (timer_callback ktime_get s).timeline = s.timeline := by
  unfold State.timeline State.fired timer_callback
  rw [List.map_append, List.append_assoc, trigger_messages_split]

theorem timeline_store {s : State} {r : Reminder} (n : Nat)
    (hpast : ∀ q ∈ s.fired, q.trigger_time ≤ r.trigger_time) :
    State.timeline { s with reminders := add_message s.reminders r, reads := n } =
      insertKey Reminder.trigger_time r s.timeline := by
  unfold State.timeline
  rw [add_message_eq]
  exact (insertKey_append _ hpast s.reminders).symm

theorem Chronicle.tick {ktime_get : Nat → Int} (hclock : Monotone ktime_get) {h : History}
    (hc : Chronicle ktime_get h) :
    Chronicle ktime_get ⟨timer_callback ktime_get h.state, h.stored⟩ := by
  refine ⟨?_, fun t => ?_, fun r hr n hn => ?_⟩
  · rw [timeline_tick]
    exact hc.sorted
  · rw [timeline_tick]
    exact hc.arrival t
  · obtain ⟨hreads, hdue⟩ :=
      trigger_messages_due ktime_get (h.state.reads + 1) h.state.reminders
    obtain ⟨x, hx, rfl⟩ := List.mem_map.mp hr
    rcases List.mem_append.mp hx with hold | hnew
    · exact hc.past x.1 (List.mem_map_of_mem hold) n
        (Nat.le_of_succ_le (Nat.le_trans hreads hn))
    · obtain ⟨hle, m, _, hlt, hm⟩ := hdue x hnew
      rw [hm] at hle
      exact hle.trans (hclock (Nat.le_of_lt (Nat.lt_of_lt_of_le hlt hn)))

theorem Chronicle.store {ktime_get : Nat → Int} {h : History} (hc : Chronicle ktime_get h)
    {r : Reminder} (hr : ktime_get h.state.reads ≤ r.trigger_time) :
    Chronicle ktime_get ⟨{ h.state with
      reminders := add_message h.state.reminders r, reads := h.state.reads + 1 },
      h.stored ++ [r]⟩ := by
  have hpast : ∀ q ∈ h.state.fired, q.trigger_time ≤ r.trigger_time := fun q hq =>
    (hc.past q hq _ (Nat.le_refl _)).trans hr
  refine ⟨?_, fun t => ?_, fun q hq n hn => hc.past q hq n (Nat.le_of_succ_le hn)⟩
  · rw [timeline_store _ hpast]
    exact sortedBy_insertKey _ hc.sorted r
  · rw [timeline_store _ hpast, filter_insertKey _ hc.sorted, hc.arrival t,
      List.filter_append]

theorem chronicle_step {ktime_get : Nat → Int} (hclock : Monotone ktime_get) {h h' : History}
    {c : Call} (hc : Chronicle ktime_get h) (htime : Timely ktime_get h c)
    (hs : History.step ktime_get h c = some h') : Chronicle ktime_get h' := by
  cases c with
  | store buf count old =>
      obtain ⟨⟨s', added⟩, hstore, rfl⟩ := Option.map_eq_some_iff.mp hs
      rcases recorder_store_cases hstore with
        ⟨rfl, rfl⟩ | ⟨u, t, r, hline, rfl, htrigger, rfl⟩
      · rw [Option.toList_none, List.append_nil]
        exact hc
      · obtain ⟨ht, hrange⟩ := htime (u, t) (by rw [hline]; rfl)
        have hnonneg := ktime_set_nonneg ht
        refine hc.store ?_
        rw [htrigger, wrap_of_inRange (by decide) hrange]
        omega
  | tick =>
      cases hs
      exact hc.tick hclock

/-- The reminders delivered since load come in time order, and those of one trigger time in
    the order in which they were stored. -/
theorem delivered_in_order {ktime_get : Nat → Int} (hclock : Monotone ktime_get)
    {calls : List Call} {h : History}
    (htime : AllSteps (History.step ktime_get) (Timely ktime_get) History.init calls)
    (hrun : run (History.step ktime_get) History.init calls = some h) :
    h.state.fired.Pairwise (fun r q => r.trigger_time ≤ q.trigger_time) ∧
    ∀ t, h.state.fired.filter (·.trigger_time = t) <+: h.stored.filter (·.trigger_time = t) := by
  have hinit : Chronicle ktime_get History.init :=
    ⟨List.Pairwise.nil, fun _ => rfl, fun r hr => nomatch hr⟩
  have hc : Chronicle ktime_get h :=
    run_induct (fun _ h => Chronicle ktime_get h) hinit
      (fun _ _ _ _ hc htime hs => chronicle_step hclock hc htime hs) htime hrun
  refine ⟨(List.pairwise_append.mp hc.sorted).1, fun t => ?_⟩
  rw [← hc.arrival t]
  unfold State.timeline
  rw [List.filter_append]
  exact List.prefix_append _ _

/-- The lines "b 0 y" and "a 0 x" and one tick, with a clock that counts its readings. -/
theorem delivered_in_order_two : ∃ h, run (History.step fun n => n) History.init
      [.store [98, 32, 48, 32, 121, 10, 0] 6 [], .store [97, 32, 48, 32, 120, 10, 0] 6 [],
        .tick] = some h ∧
    h.state.fired.Pairwise fun r q => r.trigger_time ≤ q.trigger_time := by
  have hclock : Monotone fun n : Nat => (n : Int) := fun _ _ h => Int.ofNat_le.mpr h
  obtain ⟨h, hrun⟩ := Option.isSome_iff_exists.mp (by decide +kernel :
    (run (History.step fun n => n) History.init
      [.store [98, 32, 48, 32, 121, 10, 0] 6 [], .store [97, 32, 48, 32, 120, 10, 0] 6 [],
        .tick]).isSome = true)
  exact ⟨h, hrun, (delivered_in_order hclock (by decide +kernel) hrun).1⟩

end KernelBasecamp.Reminders
