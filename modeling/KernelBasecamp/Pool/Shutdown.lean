/-
  Whether `shutdown_threads` can leave a worker behind in `pthread_cond_wait`.

  The flag is cleared and the signals are sent without the mutex. A worker that read `enabled`
  before can still lock the mutex, find `data_list` empty and wait; when fewer signals are left
  than workers wait, somebody is never woken (`stranded_worker`).

  `Wakeable` is the condition that this does not happen: a worker begins to wait only while
  fewer workers wait than `shutdown_threads` has signals to send (before the first signal that
  is all of them, and there are as many signals as workers).

  * `not_stranded`: in a run that meets the condition nobody is stranded, and from a state in
    which a worker begins to wait against it every way to the end of the signals strands
    somebody, and there is such a way.
-/
import KernelBasecamp.Lib.Parties
import KernelBasecamp.Pool.Steps

namespace KernelBasecamp.Pool

open KernelBasecamp.Lib

/-- One for a worker in `pthread_cond_wait`. -/
def Pc.waits : Pc → Nat
  | .waiting => 1
  | _ => 0

/-- The number of workers in `pthread_cond_wait`. -/
def waiters (s : State) : Nat := tally Pc.waits s.pc

/-- The signals that `shutdown_threads` has still to send. -/
def MainPc.signalsLeft : MainPc → Nat
  | .signals i => THREAD_COUNT - i
  | .joins _ => 0
  | _ => THREAD_COUNT

/-- `shutdown_threads` has sent all its signals. -/
def Issued (s : State) : Prop := s.main.signalsLeft = 0

instance (s : State) : Decidable (Issued s) := inferInstanceAs (Decidable (_ = _))

/-- All signals are sent and a worker waits. A signal wakes its worker at once, so no wake-up
    is pending. -/
def Stranded (s : State) : Prop := Issued s ∧ ∃ w, s.pc w = .waiting

instance (s : State) : Decidable (Stranded s) := inferInstanceAs (Decidable (_ ∧ _))

/-- A worker begins to wait only while fewer workers wait than signals are left. -/
def Wakeable (s : State) : Act → Prop
  | .worker w => s.pc w = .test → s.data_list = [] → waiters s < s.main.signalsLeft
  | _ => True

instance (s : State) (a : Act) : Decidable (Wakeable s a) :=
  match a with
  | .worker w => inferInstanceAs
      (Decidable (s.pc w = .test → s.data_list = [] → waiters s < s.main.signalsLeft))
  | .append .. => isTrue trivial
  | .quit => isTrue trivial
  | .main _ => isTrue trivial

theorem waiters_move {s s' : State} {w : Worker} {p : Pc}
    (hpc : s'.pc = Function.update s.pc w p) :
    waiters s' + (s.pc w).waits = waiters s + p.waits := by
  unfold waiters
  rw [hpc]
  exact tally_update Pc.waits s.pc w p

theorem Pc.waits_le_one (p : Pc) : p.waits ≤ 1 := by
  unfold Pc.waits
  split <;> omega

theorem waiters_le (s : State) : waiters s ≤ THREAD_COUNT := by
  have h := tally_le_card Pc.waits Pc.waits_le_one s.pc
  rwa [Fintype.card_fin] at h

theorem waiters_pos_iff {s : State} : 0 < waiters s ↔ ∃ w, s.pc w = .waiting := by
  constructor
  · intro h
    obtain ⟨w, hw⟩ := exists_of_tally_pos Pc.waits h
    refine ⟨w, ?_⟩
    cases hpc : s.pc w with
    | waiting => rfl
    | _ => rw [hpc] at hw; cases hw
  · rintro ⟨w, hw⟩
    have hone := le_tally Pc.waits s.pc w
    rw [hw] at hone
    exact hone

theorem stranded_iff {s : State} : Stranded s ↔ Issued s ∧ 0 < waiters s := by
  rw [waiters_pos_iff]
  rfl

/-! ## What a step does to waiters and signals -/

/-- A step leaves waiters and signals alone, or it starts a wait, or it is a signal of
    `shutdown_threads`, which wakes one of the waiters if there is one, or all these signals are
    still to come. -/
inductive Counts (s : State) (a : Act) (s' : State) : Prop where
  | keep (hw : waiters s' = waiters s) (hm : s'.main.signalsLeft = s.main.signalsLeft)
  | wait (w : Worker) (ha : a = .worker w) (hpc : s.pc w = .test) (hnil : s.data_list = [])
      (hw : waiters s' = waiters s + 1) (hm : s'.main.signalsLeft = s.main.signalsLeft)
  | signal (hw : waiters s' = waiters s - 1) (hm : s'.main.signalsLeft + 1 = s.main.signalsLeft)
  | early (hm : s.main.signalsLeft = THREAD_COUNT) (hm' : s'.main.signalsLeft = THREAD_COUNT)

/-- The move of a worker that neither was waiting nor waits afterwards. -/
theorem waiters_same {s s' : State} {w : Worker} {p : Pc} (hq : (s.pc w).waits = 0)
    (hp : p.waits = 0) (hpc : s'.pc = Function.update s.pc w p) : waiters s' = waiters s := by
  have hmove := waiters_move hpc
  omega

theorem step_counts {s s' : State} {a : Act} (hs : Step s a s') : Counts s a s' := by
  cases hs with
  | wait w hpc hnil =>
      refine .wait w rfl hpc hnil ?_ rfl
      have hmove : waiters ({ s with mutex := none }.goto w .waiting) + (s.pc w).waits =
          waiters s + Pc.waiting.waits := waiters_move rfl
      rw [hpc] at hmove
      exact hmove
  | wake v next hpc hmain =>
      have hmove : waiters ({ s with main := next }.goto v .woken) + (s.pc v).waits =
          waiters s + Pc.woken.waits := waiters_move rfl
      rw [hpc] at hmove
      change _ + 1 = waiters s + 0 at hmove
      rcases hmain with ⟨hm, rfl⟩ | ⟨i, hi, hm, rfl⟩
      · exact .early (by rw [hm]; rfl) rfl
      · refine .signal ?_ ?_
        · omega
        · change THREAD_COUNT - (i + 1) + 1 = s.main.signalsLeft
          rw [hm]
          change _ = THREAD_COUNT - i
          omega
  | lost next hpc hmain =>
      have hnone : waiters s = 0 := by
        by_contra hne
        obtain ⟨w, hw⟩ := waiters_pos_iff.mp (Nat.pos_of_ne_zero hne)
        exact hpc w hw
      rcases hmain with ⟨hm, rfl⟩ | ⟨i, hi, hm, rfl⟩
      · exact .early (by rw [hm]; rfl) rfl
      · refine .signal ?_ ?_
        · change waiters s = waiters s - 1
          omega
        · change THREAD_COUNT - (i + 1) + 1 = s.main.signalsLeft
          rw [hm]
          change _ = THREAD_COUNT - i
          omega
  | signalled o i hi hmain =>
      refine .keep rfl ?_
      rw [hmain]
      change 0 = THREAD_COUNT - i
      omega
  | join o i hi hmain =>
      refine .keep rfl ?_
      rw [hmain]
      rfl
  | create _ _ _ hmain | appendLock _ _ hmain | append _ _ hmain | quit hmain | disable _ hmain =>
      exact .early (by rw [hmain]; rfl) rfl
  -- the other steps of a worker
  | enter w hpc | leave w hpc | lock w hpc | pass w hpc | relock w hpc | check w hpc
  | giveUp w hpc | take w _ _ hpc | round w _ _ hpc | finish w _ _ hpc | put w _ _ _ hpc
  | space w _ _ _ hpc | next w _ _ _ hpc | abandon w _ _ _ hpc =>
      exact .keep (waiters_same (by rw [hpc]; rfl) rfl rfl) rfl

/-- A step that meets the condition leaves no more waiters than signals. -/
theorem wakeable_step {s s' : State} {a : Act} (h : waiters s ≤ s.main.signalsLeft)
    (hC : Wakeable s a) (hs : Step s a s') : waiters s' ≤ s'.main.signalsLeft := by
  cases step_counts hs with
  | keep hw hm =>
      rw [hw, hm]
      exact h
  | wait w ha hpc hnil hw hm =>
      subst ha
      have hlt := hC hpc hnil
      omega
  | signal hw hm => omega
  | early hm hm' =>
      rw [hm']
      exact waiters_le s'

/-- Once more workers wait than signals are left, this stays so. -/
theorem late_step {s s' : State} {a : Act} (h : s.main.signalsLeft < waiters s)
    (hs : Step s a s') : s'.main.signalsLeft < waiters s' := by
  cases step_counts hs with
  | keep hw hm =>
      rw [hw, hm]
      exact h
  | wait w ha hpc hnil hw hm => omega
  | signal hw hm => omega
  | early hm hm' =>
      have hle := waiters_le s
      omega

/-! ## Runs -/

theorem late_run {s s' : State} {acts : List Act} (h : s.main.signalsLeft < waiters s)
    (hrun : run step s acts = some s') : s'.main.signalsLeft < waiters s' :=
  run_invariant (fun s => s.main.signalsLeft < waiters s) h
    (fun _ _ _ hI hs => late_step hI (step_cases hs)) hrun

/-- The next signal can always be sent. -/
theorem signal_possible {s : State} {i : Nat} (hmain : s.main = .signals i)
    (hi : i < THREAD_COUNT) :
    ∃ o s', step s (.main o) = some s' ∧ s'.main = .signals (i + 1) := by
  have hstep : ∀ o, step s (.main o) = cond_signal s (.signals (i + 1)) o := by
    intro o
    change mainStep s o = _
    unfold mainStep
    rw [hmain]
    exact if_pos hi
  by_cases hw : ∃ v, s.pc v = .waiting
  · obtain ⟨v, hv⟩ := hw
    refine ⟨some v, { s with main := .signals (i + 1) }.goto v .woken, ?_, rfl⟩
    rw [hstep]
    exact if_pos hv
  · refine ⟨none, { s with main := .signals (i + 1) }, ?_, rfl⟩
    rw [hstep]
    exact if_pos fun v hv => hw ⟨v, hv⟩

/-- From anywhere in the signals, the main thread can send the rest of them. -/
theorem signals_finish (k : Nat) {s : State} (hk : s.main.signalsLeft = k)
    (hmain : (∃ i, s.main = .signals i) ∨ Issued s) :
    ∃ acts s', run step s acts = some s' ∧ Issued s' := by
  induction k generalizing s with
  | zero => exact ⟨[], s, rfl, hk⟩
  | succ k ih =>
      obtain ⟨i, hi⟩ := hmain.resolve_right fun h => by
        unfold Issued at h
        omega
      rw [hi] at hk
      change THREAD_COUNT - i = k + 1 at hk
      obtain ⟨o, s₁, hstep, hs₁⟩ := signal_possible hi (by omega)
      have hleft : s₁.main.signalsLeft = k := by
        rw [hs₁]
        change THREAD_COUNT - (i + 1) = k
        omega
      obtain ⟨acts, s', hrun, hissued⟩ := ih hleft (.inl ⟨i + 1, hs₁⟩)
      refine ⟨.main o :: acts, s', ?_, hissued⟩
      rw [run_cons, hstep, Option.bind_some, hrun]

/-- A worker begins to wait although too few signals are left: somebody will be stranded. -/
theorem stranded_of_late_wait {s : State} {w : Worker} (hpc : s.pc w = .test)
    (hnil : s.data_list = []) (hlate : s.main.signalsLeft ≤ waiters s) :
    (∀ more s', run step s (.worker w :: more) = some s' → Issued s' → Stranded s') ∧
      ∃ more s', run step s (.worker w :: more) = some s' ∧ Stranded s' := by
  have hstep : step s (.worker w) = some ({ s with mutex := none }.goto w .waiting) := by
    change runner s w = _
    unfold runner
    rw [hpc]
    exact if_pos hnil
  have hmove : waiters ({ s with mutex := none }.goto w .waiting) + (s.pc w).waits =
      waiters s + Pc.waiting.waits := waiters_move rfl
  rw [hpc] at hmove
  change _ + 0 = _ + 1 at hmove
  have h₁ : s.main.signalsLeft < waiters ({ s with mutex := none }.goto w .waiting) := by omega
  have hall : ∀ more s', run step s (.worker w :: more) = some s' → Issued s' → Stranded s' := by
    intro more s' hrun hissued
    rw [run_cons, hstep, Option.bind_some] at hrun
    exact stranded_iff.mpr ⟨hissued, Nat.zero_lt_of_lt (late_run h₁ hrun)⟩
  refine ⟨hall, ?_⟩
  -- the signals have begun, since at most three other workers wait
  have hmain : (∃ i, s.main = .signals i) ∨ Issued s := by
    have hle := waiters_le ({ s with mutex := none }.goto w .waiting)
    unfold Issued
    cases hm : s.main with
    | signals i => exact .inl ⟨i, rfl⟩
    | joins i => exact .inr rfl
    | _ =>
        rw [hm] at hlate
        change THREAD_COUNT ≤ _ at hlate
        omega
  obtain ⟨more, s', hrun, hissued⟩ :=
    signals_finish _ (s := { s with mutex := none }.goto w .waiting) rfl hmain
  have hrun' : run step s (.worker w :: more) = some s' := by
    rw [run_cons, hstep, Option.bind_some]
    exact hrun
  exact ⟨more, s', hrun', hall more s' hrun' hissued⟩

/-- In a run in which workers begin to wait only while fewer wait than signals are left, nobody
    is ever stranded; and after a run, a worker that begins to wait against this condition leads
    to somebody being stranded, in every way on to the end of the signals, of which there is
    one. -/
theorem not_stranded {acts : List Act} {s : State} (hrun : run step State.init acts = some s) :
    (AllSteps step Wakeable State.init acts → ¬ Stranded s) ∧
    ∀ w, ¬ Wakeable s (.worker w) →
      (∀ more s', run step State.init (acts ++ .worker w :: more) = some s' → Issued s' →
        Stranded s') ∧
      ∃ more s', run step State.init (acts ++ .worker w :: more) = some s' ∧ Stranded s' := by
  constructor
  · intro hC hbad
    have hle : waiters s ≤ s.main.signalsLeft := by
      refine run_induct (fun _ s => waiters s ≤ s.main.signalsLeft) (waiters_le State.init) ?_ hC
        hrun
      intro _ s a s' hle hw hs
      exact wakeable_step hle hw (step_cases hs)
    obtain ⟨hissued, hpos⟩ := stranded_iff.mp hbad
    unfold Issued at hissued
    omega
  · intro w hno
    have hrest : ∀ more, run step State.init (acts ++ .worker w :: more) =
        run step s (.worker w :: more) := by
      intro more
      rw [run_append, hrun, Option.bind_some]
    unfold Wakeable at hno
    push Not at hno
    obtain ⟨hpc, hnil, hlate⟩ := hno
    obtain ⟨hall, more, s', hrun', hbad⟩ := stranded_of_late_wait hpc hnil hlate
    refine ⟨fun more s' hs' => ?_, more, s', (hrest more).trans hrun', hbad⟩
    exact hall more s' ((hrest more).symm.trans hs')

/-- Worker 0 waits before the shutdown and is woken by its first signal. -/
def wokenUpActs : List Act :=
  [.worker 0, .worker 0, .worker 0, .quit, .main none, .main (some 0), .main none, .main none,
   .main none]

theorem not_stranded_woken : ∃ s, run step State.init wokenUpActs = some s ∧ Issued s ∧
    ¬ Stranded s := by
  obtain ⟨s, hs⟩ := Option.isSome_iff_exists.mp
    (by decide : (run step State.init wokenUpActs).isSome = true)
  have hissued : (run step State.init wokenUpActs).map (fun s => decide (Issued s)) =
      some true := by decide
  rw [hs] at hissued
  exact ⟨s, hs, of_decide_eq_true (Option.some.inj hissued), (not_stranded hs).1 (by decide)⟩

/-- Worker 0 reads `enabled`; the pool is shut down and four signals find nobody; worker 0 locks
    the mutex, finds `data_list` empty and waits. -/
def lateWaitActs : List Act :=
  [.worker 0, .quit, .main none, .main none, .main none, .main none, .main none, .worker 0,
   .worker 0]

theorem stranded_worker : ¬ ∀ (acts : List Act) (s : State),
    run step State.init acts = some s → ¬ Stranded s := by
  intro hall
  obtain ⟨s, hs⟩ := Option.isSome_iff_exists.mp
    (by decide : (run step State.init lateWaitActs).isSome = true)
  have hbad : (run step State.init lateWaitActs).map (fun s => decide (Stranded s)) =
      some true := by decide
  rw [hs] at hbad
  exact hall lateWaitActs s hs (of_decide_eq_true (Option.some.inj hbad))

end KernelBasecamp.Pool
