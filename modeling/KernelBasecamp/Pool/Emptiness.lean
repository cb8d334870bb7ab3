/-
  When a worker finds `data_list` empty at `data = data_list->data`.

  `runner` tests `data_list` with an `if` before `pthread_cond_wait` and does not test it again
  when the wait returns. Between the signal and the return of the wait the mutex is free, and a
  worker that never waited can take the block: `take_from_empty` is such a run, with `enabled`
  set throughout.

  `FindsWork` excludes the one step that goes wrong, re-acquiring the mutex after a wait while
  `enabled` is set and `data_list` is empty. `take_nonempty` says that in a run without such a
  step no worker ever dereferences an empty list while `enabled` is set, and that a state in
  which such a step is possible leads to an empty dereference by that worker's next two steps.

  The invariants are mutual exclusion (`Exclusive`) and `Stocked`: a worker that is past the
  wait has a block to take.
-/
import KernelBasecamp.Pool.Steps

namespace KernelBasecamp.Pool

open KernelBasecamp.Lib

/-! ## Mutual exclusion -/

/-- The points of `runner` at which the worker has the mutex. -/
def Pc.locked : Pc → Bool
  | .test | .check | .take => true
  | _ => false

structure Exclusive (s : State) : Prop where
  worker : ∀ w, (s.pc w).locked = true → s.mutex = some (.worker w)
  main : ∀ d, s.main = .appendBody d → s.mutex = some .main

namespace Exclusive

variable {s s' : State} {w : Worker} {p : Pc}

theorem init : Exclusive State.init where
  worker _ h := nomatch h
  main _ h := nomatch h

/-- Only one worker is inside. -/
theorem unique (h : Exclusive s) {v w : Worker} (hv : (s.pc v).locked = true)
    (hw : (s.pc w).locked = true) : v = w := by
  have hvw := (h.worker v hv).symm.trans (h.worker w hw)
  cases hvw
  rfl

/-- A worker moves without touching the mutex. -/
theorem keep (h : Exclusive s) (hp : p.locked = true → (s.pc w).locked = true)
    (hpc : s'.pc = Function.update s.pc w p) (hmain : s'.main = s.main)
    (hmutex : s'.mutex = s.mutex) : Exclusive s' := by
  refine ⟨fun v hv => ?_, fun d hd => ?_⟩
  · rw [hpc] at hv
    rw [hmutex]
    by_cases hvw : v = w
    · subst hvw
      rw [Function.update_self] at hv
      exact h.worker v (hp hv)
    · rw [Function.update_of_ne hvw] at hv
      exact h.worker v hv
  · rw [hmutex]
    exact h.main d (hmain ▸ hd)

/-- A worker locks the mutex, which is free. -/
theorem acquire (h : Exclusive s) (hfree : s.mutex = none)
    (hpc : s'.pc = Function.update s.pc w p) (hmain : s'.main = s.main)
    (hmutex : s'.mutex = some (.worker w)) : Exclusive s' := by
  refine ⟨fun v hv => ?_, fun d hd => ?_⟩
  · rw [hpc] at hv
    by_cases hvw : v = w
    · rw [hvw, hmutex]
    · rw [Function.update_of_ne hvw] at hv
      have hlock := h.worker v hv
      rw [hfree] at hlock
      cases hlock
  · have hlock := h.main d (hmain ▸ hd)
    rw [hfree] at hlock
    cases hlock

/-- The worker inside leaves and unlocks the mutex. -/
theorem release (h : Exclusive s) (hw : (s.pc w).locked = true) (hp : p.locked = false)
    (hpc : s'.pc = Function.update s.pc w p) (hmain : s'.main = s.main) : Exclusive s' := by
  refine ⟨fun v hv => ?_, fun d hd => ?_⟩
  · rw [hpc] at hv
    by_cases hvw : v = w
    · subst hvw
      rw [Function.update_self, hp] at hv
      cases hv
    · rw [Function.update_of_ne hvw] at hv
      exact absurd (h.unique hv hw) hvw
  · have hlock := (h.main d (hmain ▸ hd)).symm.trans (h.worker w hw)
    cases hlock

theorem step {a : Act} (h : Exclusive s) (hs : Step s a s') : Exclusive s' := by
  cases hs with
  | enter | leave | round | finish | put | space | next | abandon =>
      exact h.keep (by intro hp; cases hp) rfl rfl rfl
  | pass w hpc | check w hpc =>
      refine h.keep (fun _ => ?_) rfl rfl rfl
      rw [hpc]
      rfl
  | lock w hpc hfree | relock w hpc hfree => exact h.acquire hfree rfl rfl rfl
  | wait w hpc | giveUp w hpc | take w _ _ hpc =>
      refine h.release (w := w) ?_ rfl rfl rfl
      rw [hpc]
      rfl
  | appendLock o d hmain hfree =>
      refine ⟨fun v hv => ?_, fun _ _ => rfl⟩
      have hlock := h.worker v hv
      rw [hfree] at hlock
      cases hlock
  | append o d hmain =>
      refine ⟨fun v hv => ?_, fun _ hd => nomatch hd⟩
      have hlock := (h.main d hmain).symm.trans (h.worker v hv)
      cases hlock
  | wake v next hpc hmain =>
      have hmoved : Exclusive { s with main := next } := by
        refine ⟨h.worker, fun d hd => ?_⟩
        change next = .appendBody d at hd
        rcases hmain with ⟨-, rfl⟩ | ⟨i, -, -, rfl⟩ <;> cases hd
      exact hmoved.keep (by intro hp; cases hp) rfl rfl rfl
  | lost next hpc hmain =>
      refine ⟨h.worker, fun d hd => ?_⟩
      change next = .appendBody d at hd
      rcases hmain with ⟨-, rfl⟩ | ⟨i, -, -, rfl⟩ <;> cases hd
  | create | quit | disable | signalled | join =>
      exact ⟨h.worker, fun _ hd => nomatch hd⟩

end Exclusive

/-! ## A worker past the wait has a block to take -/

/-- The points of `runner` from which `data_list` is dereferenced without another test. -/
def Pc.passed : Pc → Bool
  | .check | .take => true
  | _ => false

theorem Pc.locked_of_passed {p : Pc} (h : p.passed = true) : p.locked = true := by
  cases p <;> first | rfl | cases h

def Stocked (s : State) : Prop :=
  s.enabled = true → ∀ w, (s.pc w).passed = true → s.data_list ≠ []

/-- A worker whose wait returns while `enabled` is set finds `data_list` non-empty. -/
def FindsWork (s : State) (a : Act) : Prop :=
  ∀ w, a = .worker w → s.pc w = .woken → s.enabled = true → s.data_list ≠ []

instance (s : State) (a : Act) : Decidable (FindsWork s a) :=
  inferInstanceAs (Decidable (∀ w, a = .worker w → s.pc w = .woken → s.enabled = true →
    s.data_list ≠ []))

/-- A worker moves and leaves `data_list` alone. -/
theorem Stocked.goto {s s' : State} {w : Worker} {p : Pc} (h : Stocked s)
    (hp : p.passed = true → s.enabled = true → s.data_list ≠ [])
    (hpc : s'.pc = Function.update s.pc w p) (hlist : s'.data_list = s.data_list)
    (hen : s'.enabled = s.enabled) : Stocked s' := by
  intro hen' v hv
  rw [hen] at hen'
  rw [hpc] at hv
  rw [hlist]
  by_cases hvw : v = w
  · subst hvw
    rw [Function.update_self] at hv
    exact hp hv hen'
  · rw [Function.update_of_ne hvw] at hv
    exact h hen' v hv

theorem Stocked.step {s s' : State} {a : Act} (hx : Exclusive s) (h : Stocked s)
    (hwork : FindsWork s a) (hs : Step s a s') : Stocked s' := by
  cases hs with
  | enter | leave | lock | wait | giveUp | round | finish | put | space | next | abandon
  | wake => exact h.goto (by intro hp; cases hp) rfl rfl rfl
  | pass w hpc hne => exact h.goto (fun _ _ => hne) rfl rfl rfl
  | relock w hpc => exact h.goto (fun _ hen => hwork w rfl hpc hen) rfl rfl rfl
  | check w hpc hen =>
      refine h.goto (fun _ hen => h hen w ?_) rfl rfl rfl
      rw [hpc]
      rfl
  | take w b rest hpc =>
      -- whoever else is past the wait would also have the mutex
      intro hen v hv
      have hw : (s.pc w).locked = true := by rw [hpc]; rfl
      rw [goto_pc] at hv
      by_cases hvw : v = w
      · subst hvw
        rw [Function.update_self] at hv
        cases hv
      · rw [Function.update_of_ne hvw] at hv
        exact absurd (hx.unique (Pc.locked_of_passed hv) hw) hvw
  | append o d hmain => exact fun _ _ _ => List.append_ne_nil_of_right_ne_nil _ (by simp)
  | disable => exact fun hen => nomatch hen
  | create | appendLock | lost | quit | signalled | join => exact h

theorem exclusive_stocked_run {acts : List Act} {s : State}
    (hC : AllSteps step FindsWork State.init acts) (hrun : run step State.init acts = some s) :
    Exclusive s ∧ Stocked s := by
  refine run_induct (fun _ s => Exclusive s ∧ Stocked s)
    ⟨Exclusive.init, fun _ _ hv => nomatch hv⟩ ?_ hC hrun
  intro _ m a m' hI hwork hm
  have hstep := step_cases hm
  exact ⟨hI.1.step hstep, hI.2.step hI.1 hwork hstep⟩

/-- From a state in which a wait can return to an empty `data_list` while `enabled` is set,
    the next two steps of that worker lead to the dereference of the empty list. -/
theorem run_relock_check {s : State} {w : Worker} (hpc : s.pc w = .woken)
    (hfree : s.mutex = none) (hen : s.enabled = true) :
    ∃ s', run step s [.worker w, .worker w] = some s' ∧ s'.enabled = true ∧
      s'.pc w = .take ∧ s'.data_list = s.data_list := by
  have hfirst : step s (.worker w) =
      some ({ s with mutex := some (.worker w) }.goto w .check) := by
    change runner s w = _
    unfold runner
    rw [hpc]
    exact if_pos hfree
  have hsecond : step ({ s with mutex := some (.worker w) }.goto w .check) (.worker w) =
      some (({ s with mutex := some (.worker w) }.goto w .check).goto w .take) := by
    change runner _ w = _
    unfold runner
    rw [goto_pc, Function.update_self]
    exact if_pos hen
  refine ⟨({ s with mutex := some (.worker w) }.goto w .check).goto w .take, ?_, hen, ?_, rfl⟩
  · rw [run_cons, hfirst, Option.bind_some, run_cons, hsecond]
    rfl
  · rw [goto_pc, Function.update_self]

/-- In a run in which every wait that returns while `enabled` is set finds `data_list`
    non-empty, no worker dereferences an empty list while `enabled` is set; and where a wait can
    return to an empty list, the run goes on to such a dereference. -/
theorem take_nonempty {acts : List Act} {s : State}
    (hrun : run step State.init acts = some s) :
    (AllSteps step FindsWork State.init acts →
      ∀ w, s.enabled = true → s.pc w = .take → s.data_list ≠ []) ∧
    (∀ w, ¬ FindsWork s (.worker w) → s.mutex = none →
      ∃ s', run step State.init (acts ++ [.worker w, .worker w]) = some s' ∧
        s'.enabled = true ∧ s'.pc w = .take ∧ s'.data_list = []) := by
  constructor
  · intro hC w hen hpc
    refine (exclusive_stocked_run hC hrun).2 hen w ?_
    rw [hpc]
    rfl
  · intro w hno hfree
    unfold FindsWork at hno
    push Not at hno
    obtain ⟨v, hv, hpc, hen, hnil⟩ := hno
    cases hv
    obtain ⟨s', hnext, hen', hpc', hlist⟩ := run_relock_check hpc hfree hen
    refine ⟨s', ?_, hen', hpc', hlist.trans hnil⟩
    rw [run_append, hrun, Option.bind_some]
    exact hnext

/-- Worker 0 waits and is woken, and finds the block still there. -/
def wokenActs : List Act :=
  [.worker 0, .worker 0, .worker 0, .append 97 1 1, .main none, .main none, .main (some 0),
   .worker 0, .worker 0]

theorem take_nonempty_woken : ∃ s, run step State.init wokenActs = some s ∧
    s.pc 0 = .take ∧ s.data_list ≠ [] := by
  obtain ⟨s, hs⟩ := Option.isSome_iff_exists.mp
    (by decide : (run step State.init wokenActs).isSome = true)
  have hat : (run step State.init wokenActs).map (fun s => (s.enabled, s.pc 0)) =
      some (true, .take) := by decide
  rw [hs] at hat
  obtain ⟨hen, hpc⟩ := Prod.mk.inj (Option.some.inj hat)
  exact ⟨s, hs, hpc, (take_nonempty hs).1 (by decide) 0 hen hpc⟩

/-- Worker 0 waits; a block is appended and worker 0 is signalled; worker 1 comes by and takes
    the block; worker 0 gets the mutex and goes on to the dereference. -/
def stolenActs : List Act :=
  [.worker 0, .worker 0, .worker 0, .append 97 1 1, .main none, .main none, .main (some 0),
   .worker 1, .worker 1, .worker 1, .worker 1, .worker 1, .worker 0, .worker 0]

theorem take_from_empty : ¬ ∀ (acts : List Act) (s : State) (w : Worker),
    run step State.init acts = some s → s.enabled = true → s.pc w = .take →
      s.data_list ≠ [] := by
  intro hall
  obtain ⟨s, hs⟩ := Option.isSome_iff_exists.mp
    (by decide : (run step State.init stolenActs).isSome = true)
  have hat : (run step State.init stolenActs).map (fun s => (s.enabled, s.pc 0, s.data_list)) =
      some (true, .take, []) := by decide
  rw [hs] at hat
  obtain ⟨hen, hrest⟩ := Prod.mk.inj (Option.some.inj hat)
  obtain ⟨hpc, hnil⟩ := Prod.mk.inj hrest
  exact hall stolenActs s 0 hs hen hpc hnil

end KernelBasecamp.Pool
