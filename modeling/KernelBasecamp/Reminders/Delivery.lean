/-
  The reminder list over whole runs of `add_message` and `trigger_messages`.

  `add_message` is insertion by trigger time behind equal times (`add_message_eq`), so the list
  stays sorted; a tick splits the sorted list in two, and because the clock does not go back
  the part it leaves behind is the part that was not due at the tick's first reading
  (`trigger_messages_left`). For every trigger time, the reminders delivered so far followed by
  those in the list are the reminders added, in the order in which they were added.
-/
import Mathlib
import KernelBasecamp.Lib.KeyedList
import KernelBasecamp.Lib.Run
import KernelBasecamp.Reminders.Recorder

namespace KernelBasecamp.Reminders

open Lib Lib.KeyedList

/-- The list is sorted by trigger time. -/
abbrev Sorted (l : List Reminder) : Prop := SortedBy Reminder.trigger_time l

/-! ## One call -/

theorem add_message_eq (l : List Reminder) (r : Reminder) :
    add_message l r = insertKey Reminder.trigger_time r l := by
  unfold add_message list_add_tail
  induction l with
  | nil => rfl
  | cons e es ih =>
      rw [addPosition, insertKey]
      split
      · rfl
      · rw [List.insertIdx_succ_cons, ih]

/-- The new reminder goes behind some that are not later, and nothing else changes. -/
theorem add_message_split (l : List Reminder) (r : Reminder) :
    ∃ as bs, l = as ++ bs ∧ add_message l r = as ++ r :: bs ∧
      ∀ e ∈ as, e.trigger_time ≤ r.trigger_time := by
  rw [add_message_eq]
  induction l with
  | nil => exact ⟨[], [], rfl, rfl, fun e he => nomatch he⟩
  | cons e es ih =>
      obtain ⟨as, bs, rfl, hadd, hle⟩ := ih
      rw [insertKey]
      split
      · exact ⟨[], e :: (as ++ bs), rfl, rfl, fun e he => nomatch he⟩
      · next hgt =>
          refine ⟨e :: as, bs, rfl, by rw [hadd]; rfl, fun q hq => ?_⟩
          rcases List.mem_cons.mp hq with rfl | hq
          · exact not_lt.mp hgt
          · exact hle q hq

/-- A tick takes its deliveries off the front of the list. -/
theorem trigger_messages_split (ktime_get : Nat → Int) (n : Nat) (l : List Reminder) :
    (trigger_messages ktime_get n l).delivered.map Prod.fst ++
      (trigger_messages ktime_get n l).reminders = l := by
  induction l generalizing n with
  | nil => rfl
  | cons r rs ih =>
      rw [trigger_messages]
      split
      · exact congrArg (r :: ·) (ih (n + 1))
      · rfl

/-- The reading recorded with a delivery is one the tick took, and the reminder was due at
    it. -/
theorem trigger_messages_due (ktime_get : Nat → Int) (n : Nat) (l : List Reminder) :
    n ≤ (trigger_messages ktime_get n l).reads ∧
    ∀ x ∈ (trigger_messages ktime_get n l).delivered, x.1.trigger_time ≤ x.2 ∧
      ∃ m, n ≤ m ∧ m < (trigger_messages ktime_get n l).reads ∧ x.2 = ktime_get m := by
  induction l generalizing n with
  | nil => exact ⟨Nat.le_refl n, by simp [trigger_messages]⟩
  | cons r rs ih =>
      rw [trigger_messages]
      split
      · next hdue =>
          obtain ⟨hreads, hrest⟩ := ih (n + 1)
          refine ⟨Nat.le_of_succ_le hreads, fun x hx => ?_⟩
          rcases List.mem_cons.mp hx with rfl | hx
          · exact ⟨hdue, n, Nat.le_refl n, hreads, rfl⟩
          · obtain ⟨hle, m, hm, hlt, heq⟩ := hrest x hx
            exact ⟨hle, m, Nat.le_of_succ_le hm, hlt, heq⟩
      · exact ⟨Nat.le_succ n, by simp⟩

/-- On a sorted list a tick leaves only reminders that were not due at its first reading. -/
theorem trigger_messages_left {ktime_get : Nat → Int} (hclock : Monotone ktime_get) (n : Nat)
    {l : List Reminder} (hl : Sorted l) :
    ∀ r ∈ (trigger_messages ktime_get n l).reminders, ktime_get n < r.trigger_time := by
  induction l generalizing n with
  | nil => simp [trigger_messages]
  | cons r rs ih =>
      obtain ⟨hr, hrs⟩ := (SortedBy.cons_iff _).mp hl
      rw [trigger_messages]
      split
      · intro x hx
        exact (hclock (Nat.le_succ n)).trans_lt (ih (n + 1) hrs x hx)
      · next hdue =>
          -- the walk stops here, and everything behind `r` is at least as late
          intro x hx
          rcases List.mem_cons.mp hx with rfl | hx
          · exact not_le.mp hdue
          · exact (not_le.mp hdue).trans_le (hr x hx)

theorem sorted_trigger_messages (ktime_get : Nat → Int) (n : Nat) {l : List Reminder}
    (hl : Sorted l) : Sorted (trigger_messages ktime_get n l).reminders := by
  have hsplit := trigger_messages_split ktime_get n l
  rw [← hsplit] at hl
  exact (List.pairwise_append.mp hl).2.1

/-! ## Runs -/

/-- The list is sorted, and for every trigger time the reminders delivered and those in the
    list are, in this order, the reminders added. -/
structure Inv (ops : List Op) (s : State) : Prop where
  sorted : Sorted s.reminders
  arrival : ∀ t, (s.fired ++ s.reminders).filter (·.trigger_time = t) =
    (added ops).filter (·.trigger_time = t)

theorem inv_init : Inv [] State.init := ⟨List.Pairwise.nil, fun _ => rfl⟩

theorem inv_step {ktime_get : Nat → Int} {ops : List Op} {s s' : State} {op : Op}
    (h : Inv ops s) (hs : step ktime_get s op = some s') : Inv (ops ++ [op]) s' := by
  have hadded : added (ops ++ [op]) = added ops ++ added [op] := List.filterMap_append
  cases op with
  | add r =>
      cases hs
      refine ⟨?_, fun t => ?_⟩
      · show Sorted (add_message s.reminders r)
        rw [add_message_eq]
        exact sortedBy_insertKey _ h.sorted r
      · show (s.fired ++ add_message s.reminders r).filter _ = _
        rw [add_message_eq, List.filter_append, filter_insertKey _ h.sorted, hadded,
          List.filter_append, ← h.arrival t, List.filter_append, List.append_assoc]
        rfl
  | tick =>
      cases hs
      refine ⟨sorted_trigger_messages _ _ h.sorted, fun t => ?_⟩
      have hall : (s.delivered ++ (trigger_messages ktime_get s.reads s.reminders).delivered).map
          Prod.fst ++ (trigger_messages ktime_get s.reads s.reminders).reminders =
          s.fired ++ s.reminders := by
        rw [List.map_append, List.append_assoc, trigger_messages_split]
        rfl
      show (List.map Prod.fst _ ++ _).filter _ = _
      rw [hall, h.arrival t, hadded]
      simp [added]

theorem inv_run {ktime_get : Nat → Int} {ops : List Op} {s : State}
    (hrun : run (step ktime_get) State.init ops = some s) : Inv ops s :=
  run_induct (C := fun _ _ => True) Inv inv_init (fun _ _ _ _ h _ hs => inv_step h hs)
    (allSteps_true _ _) hrun

/-- In every state reached with a clock that never goes back: the list is sorted; for each
    trigger time the delivered reminders followed by the pending ones are those added, in
    order of insertion; nothing is lost or doubled; and the next tick delivers only reminders
    that are due at the reading taken for them and leaves only reminders that are later than
    its first reading. -/
theorem reminders_run (ktime_get : Nat → Int) (hclock : Monotone ktime_get) (ops : List Op)
    (s : State) (hrun : run (step ktime_get) State.init ops = some s) :
    Sorted s.reminders ∧
    (∀ t, (s.fired ++ s.reminders).filter (·.trigger_time = t) =
      (added ops).filter (·.trigger_time = t)) ∧
    (s.fired ++ s.reminders).Perm (added ops) ∧
    (∀ s', step ktime_get s .tick = some s' → ∃ d, s'.delivered = s.delivered ++ d ∧
      (∀ x ∈ d, x.1.trigger_time ≤ x.2 ∧
        ∃ m, s.reads ≤ m ∧ m < s'.reads ∧ x.2 = ktime_get m) ∧
      ∀ r ∈ s'.reminders, ktime_get s.reads < r.trigger_time) := by
  have hinv : Inv ops s := inv_run hrun
  refine ⟨hinv.sorted, hinv.arrival, perm_of_filter_key _ hinv.arrival, fun s' hs' => ?_⟩
  cases hs'
  exact ⟨_, rfl, (trigger_messages_due _ _ _).2, trigger_messages_left hclock _ hinv.sorted⟩

/-- Two reminders added in the wrong order, and a tick at time 0. -/
theorem reminders_run_two :
    run (step fun n => n) State.init
        [.add ⟨2, [98], []⟩, .add ⟨0, [97], []⟩, .tick] =
      some ⟨[⟨2, [98], []⟩], 2, [(⟨0, [97], []⟩, 0)]⟩ ∧
    Sorted [⟨2, [98], []⟩] ∧
    [⟨0, [97], []⟩, ⟨2, [98], []⟩].Perm
      (added [.add ⟨2, [98], []⟩, .add ⟨0, [97], []⟩, .tick]) := by
  have hclock : Monotone fun n : Nat => (n : Int) := fun _ _ h => Int.ofNat_le.mpr h
  have h := reminders_run (fun n => n) hclock
    [.add ⟨2, [98], []⟩, .add ⟨0, [97], []⟩, .tick] _ rfl
  exact ⟨rfl, h.1, h.2.2.1⟩

end KernelBasecamp.Reminders
