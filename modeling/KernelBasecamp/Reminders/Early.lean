/-
  Whether a reminder can fire before its time.

  The trigger time is the sum of the clock and `ktime_set(t, 0)` in 64 bits with a sign. A
  timeout near the limit saturates, or the sum wraps to a time in the past, and the reminder
  fires at the next tick.

  * `never_early_iff`: for a clock reading and a timeout that are not negative, the reminder
    stored is never delivered early exactly when they are `Punctual`.
-/
import KernelBasecamp.Reminders.Order

namespace KernelBasecamp.Reminders

open Lib Lib.CInt

/-- In every run from `s` on, with any clock of 64 bits, `r` is delivered at no reading before
    `due`. -/
def NeverBefore (due : Int) (s : State) (r : Reminder) : Prop :=
  ∀ clock : Nat → Int, (∀ n, InRange 64 (clock n)) → ∀ calls h,
    run (History.step clock) ⟨s, []⟩ calls = some h →
      ∀ x ∈ h.state.delivered.drop s.delivered.length, x.1 = r → due ≤ x.2

/-- The timeout does not saturate and its sum with the clock is a `ktime_t`; or it is the first
    one that saturates and the clock is at 0. -/
def Punctual (now t : Int) : Prop :=
  t < KTIME_MAX / NSEC_PER_SEC ∧ now + t * NSEC_PER_SEC ≤ KTIME_MAX ∨
    t = KTIME_MAX / NSEC_PER_SEC ∧ now = 0

instance (now t : Int) : Decidable (Punctual now t) := inferInstanceAs (Decidable (_ ∨ _))

/-! ## What is delivered is due -/

/-- The deliveries made since a state with the log `base` were due at their readings. -/
def DueSince (base : List (Reminder × Int)) (h : History) : Prop :=
  ∃ more, h.state.delivered = base ++ more ∧ ∀ x ∈ more, x.1.trigger_time ≤ x.2

theorem dueSince_step {clock : Nat → Int} {base : List (Reminder × Int)} {h h' : History} {c : Call}
    (hdue : DueSince base h) (hs : History.step clock h c = some h') : DueSince base h' := by
  obtain ⟨more, hlog, hle⟩ := hdue
  cases c with
  | store buf count old =>
      obtain ⟨⟨s', added⟩, hstore, rfl⟩ := Option.map_eq_some_iff.mp hs
      rcases recorder_store_cases hstore with ⟨rfl, -⟩ | ⟨u, t, r, -, -, -, rfl⟩
      · exact ⟨more, hlog, hle⟩
      · exact ⟨more, hlog, hle⟩
  | tick =>
      cases hs
      refine ⟨more ++ (trigger_messages clock (h.state.reads + 1) h.state.reminders).delivered, ?_,
        fun x hx => ?_⟩
      · rw [← List.append_assoc, ← hlog]
        rfl
      · rcases List.mem_append.mp hx with hold | hnew
        · exact hle x hold
        · exact ((trigger_messages_due clock _ _).2 x hnew).1

/-- A walk at a time at which `r` and all before it are due delivers `r`. -/
theorem mem_delivered {r : Reminder} {c : Int} (hr : r.trigger_time ≤ c) {as : List Reminder}
    (has : ∀ e ∈ as, e.trigger_time ≤ c) (n : Nat) (bs : List Reminder) :
    (r, c) ∈ (trigger_messages (fun _ => c) n (as ++ r :: bs)).delivered := by
  induction as generalizing n with
  | nil =>
      rw [List.nil_append, trigger_messages, if_pos hr]
      exact List.mem_cons_self
  | cons e as ih =>
      rw [List.cons_append, trigger_messages, if_pos (has e List.mem_cons_self)]
      exact List.mem_cons_of_mem _ (ih (fun q hq => has q (List.mem_cons_of_mem e hq)) (n + 1))

/-- A reminder in the list, behind others that are not later, can be delivered at its trigger
    time and at no earlier reading. -/
theorem neverBefore_iff {s : State} {r : Reminder} {as bs : List Reminder}
    (hlist : s.reminders = as ++ r :: bs) (has : ∀ e ∈ as, e.trigger_time ≤ r.trigger_time)
    (hrange : InRange 64 r.trigger_time) (due : Int) :
    NeverBefore due s r ↔ due ≤ r.trigger_time := by
  constructor
  · intro h
    have htick := h (fun _ => r.trigger_time) (fun _ => hrange) [.tick] _ rfl
    refine htick (r, r.trigger_time) ?_ rfl
    have hlog : (timer_callback (fun _ => r.trigger_time) s).delivered = s.delivered ++
        (trigger_messages (fun _ => r.trigger_time) (s.reads + 1) s.reminders).delivered := rfl
    rw [hlog, List.drop_left, hlist]
    exact mem_delivered (Int.le_refl _) has _ bs
  · intro hdue clock _ calls h hrun x hx hxr
    have hsince : DueSince s.delivered h :=
      run_invariant (DueSince s.delivered) ⟨[], (List.append_nil _).symm, fun x hx => nomatch hx⟩
        (fun _ _ _ h hs => dueSince_step h hs) hrun
    obtain ⟨more, hlog, hle⟩ := hsince
    rw [hlog, List.drop_left] at hx
    have hfired := hle x hx
    rw [hxr] at hfired
    exact Int.le_trans hdue hfired

/-! ## The trigger time -/

/-- The wrapped sum is at least the sum of the integers exactly when they are punctual. -/
theorem punctual_iff {now t : Int} (hnow : 0 ≤ now) (hrange : InRange 64 now) (ht : 0 ≤ t) :
    now + t * NSEC_PER_SEC ≤ wrap 64 (now + ktime_set t) ↔ Punctual now t := by
  obtain ⟨k, hk⟩ := wrap_eq_sub 64 (now + ktime_set t)
  have hwrapped := inRange_wrap (by decide : 0 < 64) (now + ktime_set t)
  rw [hk] at hwrapped ⊢
  unfold InRange at hrange hwrapped
  unfold Punctual
  by_cases hlt : t < KTIME_MAX / NSEC_PER_SEC
  · rw [ktime_set_of_lt ht hlt] at hwrapped ⊢
    unfold KTIME_MAX NSEC_PER_SEC at *
    omega
  · have hset : ktime_set t = KTIME_MAX := if_pos (Int.not_lt.mp hlt)
    rw [hset] at hwrapped ⊢
    unfold KTIME_MAX NSEC_PER_SEC at *
    omega

section

variable {ktime_get : Nat → Int} {s s' : State} {buf old u : List UInt8} {count : Nat}
  {r : Reminder} {t : Int}

/-- What a call stores can be delivered from its trigger time on. -/
theorem neverBefore_stored (hstore : recorder_store ktime_get s buf count old = some (s', some r))
    (hline : scanLine buf = some (some (u, t))) (due : Int) :
    NeverBefore due s' r ↔ due ≤ wrap 64 (ktime_get s.reads + ktime_set t) := by
  rcases recorder_store_cases hstore with ⟨-, hnone⟩ | ⟨u', t', r', hline', hr, htrigger, rfl⟩
  · cases hnone
  · cases hr
    rw [hline] at hline'
    cases hline'
    obtain ⟨as, bs, -, hadd, has⟩ := add_message_split s.reminders r
    rw [neverBefore_iff hadd has (by rw [htrigger]; exact inRange_wrap (by decide) _), htrigger]

/-- The reminder that a call stores is never delivered early exactly when the clock reading and
    the timeout are punctual. -/
theorem never_early_iff (hstore : recorder_store ktime_get s buf count old = some (s', some r))
    (hline : scanLine buf = some (some (u, t)))
    (hnow : 0 ≤ ktime_get s.reads ∧ InRange 64 (ktime_get s.reads)) (ht : 0 ≤ t) :
    NeverBefore (ktime_get s.reads + t * NSEC_PER_SEC) s' r ↔ Punctual (ktime_get s.reads) t := by
  rw [neverBefore_stored hstore hline]
  exact punctual_iff hnow.1 hnow.2 ht

end

/-- "bob 5 hi" at the clock reading 0. -/
theorem never_early_iff_hi : ∃ s' r, recorder_store (fun _ => 0) State.init
      [98, 111, 98, 32, 53, 32, 104, 105, 10, 0] 9 [] = some (s', some r) ∧
    NeverBefore (0 + 5 * NSEC_PER_SEC) s' r := by
  have hline : scanLine [98, 111, 98, 32, 53, 32, 104, 105, 10, 0] =
      some (some ([98, 111, 98], 5)) := by decide +kernel
  have hadded : ((recorder_store (fun _ => 0) State.init
      [98, 111, 98, 32, 53, 32, 104, 105, 10, 0] 9 []).bind Prod.snd).isSome = true := by
    decide +kernel
  obtain ⟨r, hr⟩ := Option.isSome_iff_exists.mp hadded
  obtain ⟨⟨s', _⟩, hstore, rfl⟩ := Option.bind_eq_some_iff.mp hr
  exact ⟨s', r, hstore,
    (never_early_iff hstore hline (by decide) (by decide)).mpr (by decide)⟩

/-- "bob 9223372036 hi", the line with the first timeout that saturates. -/
def saturatingLine : List UInt8 :=
  [98, 111, 98, 32, 57, 50, 50, 51, 51, 55, 50, 48, 51, 54, 32, 104, 105, 10, 0]

/-- At the clock reading 1 its trigger time wraps to the least `ktime_t`. -/
theorem longest_delay : ¬ ∀ (ktime_get : Nat → Int) (s s' : State) (buf old u : List UInt8)
    (count : Nat) (r : Reminder) (t : Int),
    recorder_store ktime_get s buf count old = some (s', some r) →
    scanLine buf = some (some (u, t)) → 0 ≤ ktime_get s.reads →
    InRange 64 (ktime_get s.reads) → 0 ≤ t →
    NeverBefore (ktime_get s.reads + t * NSEC_PER_SEC) s' r := by
  intro h
  have hline : scanLine saturatingLine = some (some ([98, 111, 98], 9223372036)) := by
    decide +kernel
  have hadded : ((recorder_store (fun _ => 1) State.init saturatingLine 18 []).bind
      Prod.snd).isSome = true := by decide +kernel
  obtain ⟨r, hr⟩ := Option.isSome_iff_exists.mp hadded
  obtain ⟨⟨s', _⟩, hstore, rfl⟩ := Option.bind_eq_some_iff.mp hr
  have hnever := h _ _ _ _ _ _ _ _ _ hstore hline (by decide) (by decide) (by decide)
  have hle := (neverBefore_stored hstore hline _).mp hnever
  revert hle
  decide

end KernelBasecamp.Reminders
