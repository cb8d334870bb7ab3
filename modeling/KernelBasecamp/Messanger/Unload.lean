/-
  The threads of the messenger module and `messanger_exit`, step by step.

  `m->task` is written by the store, which assigns what `kthread_run` returned, and by the
  thread, which may have started long before and clears it at its end; `messanger_exit` tests it
  and calls `kthread_stop`. Each of these accesses is a step of its own. The second read of
  `m->task`, in the call, may be the value tested or a new one: a compiler is free to keep it.

  A record is named by the number of records made before it, and so is its thread, since
  `kthread_run` succeeds here. How long a round of `func` sleeps is part of the time that the
  step is given. `messanger_exit` starts when all stores have returned, and there are none
  after that; `kthread_stop` waits until the thread has ended. `stops` records its calls; the
  code does not read it.

  * `unload_run`: in a run whose stores assign before the thread has cleared the field, and in
    which no thread ends between the test and the call, `kthread_stop` is never called with a
    thread that has ended.
  * `stale_handle`: a short message and a late store.
-/
import Mathlib
import KernelBasecamp.Lib.Run
import KernelBasecamp.Messanger.Store

namespace KernelBasecamp.Messanger.Unload

open Lib

/-- Where a thread stands in `func`. -/
inductive Pc where
  /-- the test of the `while` -/
  | loop
  /-- `m->task = 0` -/
  | clear
  /-- `return 0` -/
  | leave
  | ended
  deriving DecidableEq, Repr

/-- A record with its store and its thread. `returned` is false between `kthread_run` and the
    end of the store; before that `task` is what was in the memory. -/
structure Cell where
  total : UInt32
  task : Task
  returned : Bool
  pc : Pc
  should_stop : Bool
  deriving DecidableEq, Repr

/-- Where `messanger_exit` stands, with the records still to visit. -/
inductive ExitPc where
  | idle
  /-- `if (m->task)` for the first record of `rest` -/
  | visit (rest : List Nat)
  /-- `kthread_stop(m->task)`, after the test has read `tested` -/
  | stop (k : Nat) (tested : Task) (rest : List Nat)
  /-- in `kthread_stop`, until the thread has ended -/
  | wait (thread : Nat) (rest : List Nat)
  deriving DecidableEq, Repr

/-- `stops` has each thread passed to `kthread_stop`, and whether it had ended. -/
structure State where
  cells : Nat → Cell
  created : Nat
  exit : ExitPc
  stops : List (Nat × Bool)

/-- The freshly loaded module, without records. -/
def State.init : State := ⟨fun _ => ⟨0, .null, false, .loop, false⟩, 0, .idle, []⟩

def State.setCell (s : State) (k : Nat) (c : Cell) : State :=
  { s with cells := Function.update s.cells k c }

/-- What decides the next step. `elapsed` is `(ktime_get() - s) / 1000000`; `kept` says whether
    the call passes on the value tested. -/
inductive Act where
  | kthread_run (total : UInt32) (old : Task)
  | assign (k : Nat)
  | func (k : Nat) (elapsed : Int)
  | exit (kept : Bool)
  deriving DecidableEq, Repr

/-- One step of the thread of record `k`. -/
def func (s : State) (k : Nat) (elapsed : Int) : Option State :=
  let c := s.cells k
  match c.pc with
  | .loop =>
      if c.should_stop = false ∧ elapsed ≤ c.total.toNat then some s
      else some (s.setCell k { c with pc := .clear })
  | .clear => some (s.setCell k { c with task := .null, pc := .leave })
  | .leave => some (s.setCell k { c with pc := .ended })
  | .ended => none

/-- `kthread_stop(task)` up to its wait; a null or garbage pointer is a fault. -/
def kthread_stop (s : State) (task : Task) (rest : List Nat) : Option State :=
  match task with
  | .handle t =>
      some { s.setCell t { s.cells t with should_stop := true } with
        exit := .wait t rest
        stops := s.stops ++ [(t, decide ((s.cells t).pc = .ended))] }
  | _ => none

/-- One step of `messanger_exit`. `list_add` puts a record in front, so the last one made is
    visited first. -/
def messanger_exit (s : State) (kept : Bool) : Option State :=
  match s.exit with
  | .idle =>
      if ∀ k < s.created, (s.cells k).returned then
        some { s with exit := .visit (List.range s.created).reverse }
      else none
  | .visit [] => none
  | .visit (k :: rest) =>
      if (s.cells k).task = .null then some { s with exit := .visit rest }
      else some { s with exit := .stop k (s.cells k).task rest }
  | .stop k tested rest => kthread_stop s (if kept then tested else (s.cells k).task) rest
  | .wait thread rest =>
      if (s.cells thread).pc = .ended then some { s with exit := .visit rest } else none

def step (s : State) : Act → Option State
  | .kthread_run total old =>
      if s.exit = .idle then
        some { s.setCell s.created ⟨total, old, false, .loop, false⟩ with created := s.created + 1 }
      else none
  | .assign k =>
      if k < s.created ∧ (s.cells k).returned = false then
        some (s.setCell k { s.cells k with task := .handle k, returned := true })
      else none
  | .func k elapsed => if k < s.created then func s k elapsed else none
  | .exit kept => messanger_exit s kept

/-! ## The condition -/

/-- The thread has still to clear its field. -/
def Pc.Busy (p : Pc) : Prop := p = .loop ∨ p = .clear

instance (p : Pc) : Decidable p.Busy := inferInstanceAs (Decidable (_ ∨ _))

/-- `messanger_exit` has tested the field of `k` and not yet called `kthread_stop`. -/
def ExitPc.stopping (k : Nat) : ExitPc → Bool
  | .stop j _ _ => j = k
  | _ => false

/-- A store assigns while the thread has still to clear the field, and no thread ends between
    the test of its field and the call. -/
def Prompt (s : State) : Act → Prop
  | .assign k => (s.cells k).pc.Busy
  | .func k _ => (s.cells k).pc = .leave → s.exit.stopping k = false
  | _ => True

instance (s : State) : ∀ a, Decidable (Prompt s a)
  | .assign k => inferInstanceAs (Decidable (s.cells k).pc.Busy)
  | .func k _ => inferInstanceAs (Decidable ((s.cells k).pc = .leave → s.exit.stopping k = false))
  | .kthread_run _ _ => isTrue trivial
  | .exit _ => isTrue trivial

/-! ## The invariant -/

/-- A record has the handle of its thread, which is still busy, or null. -/
def Cell.Fresh (c : Cell) (k : Nat) : Prop :=
  c.task = .handle k ∧ c.pc.Busy ∨ c.task = .null ∧ ¬ c.pc.Busy

/-- The records that `messanger_exit` has still to visit. -/
def ExitPc.rest : ExitPc → List Nat
  | .idle => []
  | .visit rest => rest
  | .stop _ _ rest => rest
  | .wait _ rest => rest

/-- What holds in the runs that meet the condition. -/
structure Sound (s : State) : Prop where
  fresh : ∀ k < s.created, (s.cells k).returned = true → (s.cells k).Fresh k
  returned : s.exit ≠ .idle → ∀ k < s.created, (s.cells k).returned = true
  listed : ∀ k ∈ s.exit.rest, k < s.created
  stopping : ∀ k tested rest, s.exit = .stop k tested rest →
    k < s.created ∧ tested = .handle k ∧ (s.cells k).pc ≠ .ended
  live : ∀ c ∈ s.stops, c.2 = false

theorem State.setCell_same (s : State) (k : Nat) (c : Cell) : (s.setCell k c).cells k = c := by
  unfold State.setCell
  exact Function.update_self ..

theorem State.setCell_other (s : State) {j k : Nat} (c : Cell) (h : j ≠ k) :
    (s.setCell k c).cells j = s.cells j := by
  unfold State.setCell
  exact Function.update_of_ne h ..

theorem sound_init : Sound State.init :=
  ⟨fun k hk => absurd hk (Nat.not_lt_zero k), fun h => absurd rfl h,
    fun _ hk => absurd hk List.not_mem_nil, fun _ _ _ h => (nomatch h),
    fun _ hc => absurd hc List.not_mem_nil⟩

/-- A change of one record that keeps it fresh, and that does not end a thread about to be
    stopped. -/
theorem Sound.setCell {s : State} (h : Sound s) {k : Nat} {c : Cell}
    (hfresh : c.returned = true → c.Fresh k) (hreturned : s.exit ≠ .idle → c.returned = true)
    (hended : s.exit.stopping k = true → c.pc ≠ .ended) : Sound (s.setCell k c) := by
  refine ⟨fun j hj hr => ?_, fun hidle j hj => ?_, h.listed, fun j tested rest hexit => ?_,
    h.live⟩
  · by_cases hjk : j = k
    · subst hjk
      rw [s.setCell_same] at hr ⊢
      exact hfresh hr
    · rw [s.setCell_other c hjk] at hr ⊢
      exact h.fresh j hj hr
  · by_cases hjk : j = k
    · subst hjk
      rw [s.setCell_same]
      exact hreturned hidle
    · rw [s.setCell_other c hjk]
      exact h.returned hidle j hj
  · obtain ⟨hj, htested, hpc⟩ := h.stopping j tested rest hexit
    refine ⟨hj, htested, ?_⟩
    by_cases hjk : j = k
    · subst hjk
      rw [s.setCell_same]
      refine hended ?_
      change s.exit = .stop j tested rest at hexit
      rw [hexit]
      exact decide_eq_true rfl
    · rwa [s.setCell_other c hjk]

/-- A move of `messanger_exit`. -/
theorem Sound.move {s : State} (h : Sound s) {e : ExitPc}
    (hreturned : ∀ k < s.created, (s.cells k).returned = true)
    (hlisted : ∀ k ∈ e.rest, k < s.created)
    (hstopping : ∀ k tested rest, e = .stop k tested rest →
      k < s.created ∧ tested = .handle k ∧ (s.cells k).pc ≠ .ended) :
    Sound { s with exit := e } :=
  ⟨h.fresh, fun _ => hreturned, hlisted, hstopping, h.live⟩

/-! ## The steps -/

theorem Sound.func {s s' : State} (h : Sound s) {k : Nat} {elapsed : Int} (hk : k < s.created)
    (hC : Prompt s (.func k elapsed)) (hs : Unload.func s k elapsed = some s') : Sound s' := by
  have hret : s.exit ≠ .idle → (s.cells k).returned = true := fun hidle => h.returned hidle k hk
  unfold Unload.func at hs
  dsimp only at hs
  cases hpc : (s.cells k).pc with
  | loop =>
      rw [hpc] at hs
      dsimp only at hs
      split at hs
      · cases hs
        exact h
      · cases hs
        refine h.setCell (fun hr => ?_) hret (fun _ hended => nomatch hended)
        rcases h.fresh k hk hr with ⟨htask, _⟩ | ⟨_, hbusy⟩
        · exact .inl ⟨htask, .inr rfl⟩
        · exact absurd (.inl hpc) hbusy
  | clear =>
      rw [hpc] at hs
      cases hs
      exact h.setCell (fun _ => .inr ⟨rfl, by simp [Pc.Busy]⟩) hret (fun _ hended => nomatch hended)
  | leave =>
      rw [hpc] at hs
      cases hs
      refine h.setCell (fun hr => ?_) hret (fun hstop => ?_)
      · rcases h.fresh k hk hr with ⟨_, hbusy⟩ | ⟨htask, _⟩
        · rw [hpc] at hbusy
          exact absurd hbusy (by decide)
        · exact .inr ⟨htask, by simp [Pc.Busy]⟩
      · rw [hC hpc] at hstop
        cases hstop
  | ended =>
      rw [hpc] at hs
      cases hs

/-- `kthread_stop` of a thread that has not ended. -/
theorem Sound.stop {s s' : State} (h : Sound s) {k : Nat} {rest : List Nat}
    (hidle : s.exit ≠ .idle) (hk : k < s.created) (hpc : (s.cells k).pc ≠ .ended)
    (hrest : ∀ j ∈ rest, j < s.created) (hs : kthread_stop s (.handle k) rest = some s') :
    Sound s' := by
  cases hs
  have hcell : Sound (s.setCell k { s.cells k with should_stop := true }) :=
    h.setCell (fun hr => h.fresh k hk hr) (fun hidle => h.returned hidle k hk) (fun _ => hpc)
  have hmove := hcell.move (e := .wait k rest) (hcell.returned hidle) hrest
    fun _ _ _ hstop => nomatch hstop
  refine ⟨hmove.fresh, hmove.returned, hmove.listed, hmove.stopping, fun c hc => ?_⟩
  rcases List.mem_append.mp hc with hc | hc
  · exact h.live c hc
  · rw [List.mem_singleton.mp hc]
    exact decide_eq_false hpc

/-- A field that is not null has the handle of a thread that has not ended. -/
theorem Sound.tested {s : State} (h : Sound s)
    (hall : ∀ k < s.created, (s.cells k).returned = true) {k : Nat} (hk : k < s.created)
    {rest : List Nat} (hrest : ∀ j ∈ rest, j < s.created) (hnull : (s.cells k).task ≠ .null) :
    Sound { s with exit := .stop k (s.cells k).task rest } := by
  refine h.move hall hrest fun j tested rest hstop => ?_
  cases hstop
  rcases h.fresh k hk (hall k hk) with ⟨htask, hbusy⟩ | ⟨htask, _⟩
  · refine ⟨hk, htask, fun hended => ?_⟩
    rw [hended] at hbusy
    exact absurd hbusy (by decide)
  · exact absurd htask hnull

theorem Sound.exit {s s' : State} (h : Sound s) {kept : Bool}
    (hs : messanger_exit s kept = some s') : Sound s' := by
  have hlisted := h.listed
  have hreturned := h.returned
  have hstopping := h.stopping
  unfold messanger_exit at hs
  cases hexit : s.exit with
  | idle =>
      rw [hexit] at hs
      dsimp only at hs
      split at hs
      · next hall =>
          cases hs
          refine h.move hall (fun k hk => ?_) fun _ _ _ hstop => nomatch hstop
          exact List.mem_range.mp (List.mem_reverse.mp hk)
      · cases hs
  | visit rest =>
      rw [hexit] at hs hlisted hreturned
      have hall := hreturned (fun hidle => nomatch hidle)
      cases rest with
      | nil => cases hs
      | cons k rest =>
          have hk := hlisted k List.mem_cons_self
          have htail := fun j hj => hlisted j (List.mem_cons_of_mem k hj)
          dsimp only at hs
          split at hs
          · cases hs
            exact h.move hall htail fun _ _ _ hstop => nomatch hstop
          · next hnull =>
              cases hs
              exact h.tested hall hk htail hnull
  | stop k tested rest =>
      rw [hexit] at hs hlisted hreturned
      obtain ⟨hk, rfl, hpc⟩ := hstopping k tested rest hexit
      have hidle : s.exit ≠ .idle := fun hidle => by rw [hexit] at hidle; cases hidle
      have hret := hreturned (fun hidle => nomatch hidle) k hk
      dsimp only at hs
      cases kept with
      | true => exact h.stop hidle hk hpc hlisted hs
      | false =>
          rcases h.fresh k hk hret with ⟨htask, _⟩ | ⟨htask, _⟩
          · rw [if_neg Bool.false_ne_true, htask] at hs
            exact h.stop hidle hk hpc hlisted hs
          · -- the thread has cleared the field in between: a null pointer
            rw [if_neg Bool.false_ne_true, htask] at hs
            cases hs
  | wait t rest =>
      rw [hexit] at hs hlisted hreturned
      dsimp only at hs
      split at hs
      · cases hs
        exact h.move (hreturned fun hidle => nomatch hidle) hlisted
          fun _ _ _ hstop => nomatch hstop
      · cases hs

theorem sound_step {s s' : State} {a : Act} (h : Sound s) (hC : Prompt s a)
    (hs : step s a = some s') : Sound s' := by
  unfold step at hs
  cases a with
  | kthread_run total old =>
      dsimp only at hs
      split at hs
      · next hidle =>
          cases hs
          refine ⟨fun k hk hr => ?_, fun hbusy => absurd hidle hbusy, fun k hk => ?_,
            fun k tested rest hstop => ?_, h.live⟩
          · have hne : k ≠ s.created := by
              rintro rfl
              change ((s.setCell s.created _).cells s.created).returned = true at hr
              rw [s.setCell_same] at hr
              cases hr
            change ((s.setCell s.created _).cells k).returned = true at hr
            change ((s.setCell s.created _).cells k).Fresh k
            rw [s.setCell_other _ hne] at hr ⊢
            exact h.fresh k (Nat.lt_of_le_of_ne (Nat.le_of_lt_succ hk) hne) hr
          · exact Nat.lt_succ_of_lt (h.listed k hk)
          · change s.exit = _ at hstop
            rw [hidle] at hstop
            cases hstop
      · cases hs
  | assign k =>
      dsimp only at hs
      split at hs
      · next hk =>
          cases hs
          refine h.setCell (fun _ => .inl ⟨rfl, hC⟩) (fun _ => rfl) (fun _ hended => ?_)
          rcases hC with hpc | hpc <;> rw [hpc] at hended <;> cases hended
      · cases hs
  | func k elapsed =>
      dsimp only at hs
      split at hs
      · next hk => exact h.func hk hC hs
      · cases hs
  | exit kept => exact h.exit hs

/-! ## Runs -/

/-- In every run that meets the condition `kthread_stop` is never called with a thread that has
    ended. -/
theorem unload_run {acts : List Act} {s : State} (hC : AllSteps step Prompt State.init acts)
    (hrun : run step State.init acts = some s) : ∀ c ∈ s.stops, c.2 = false :=
  (run_induct (fun _ s => Sound s) sound_init (fun _ _ _ _ h hC hs => sound_step h hC hs) hC
    hrun).live

/-- A message of two rounds, stopped while it is printed. -/
theorem unload_run_stopped :
    ∃ s, run step State.init [.kthread_run 5 .null, .assign 0, .func 0 0, .func 0 1, .exit true,
        .exit true, .exit true, .func 0 2, .func 0 2, .func 0 2, .exit true] = some s ∧
      s.stops = [(0, false)] ∧ ∀ c ∈ s.stops, c.2 = false := by
  have hstops : (run step State.init [.kthread_run 5 .null, .assign 0, .func 0 0, .func 0 1,
      .exit true, .exit true, .exit true, .func 0 2, .func 0 2, .func 0 2, .exit true]).map
        State.stops = some [(0, false)] := by decide +kernel
  obtain ⟨s, hs, hstops⟩ := Option.map_eq_some_iff.mp hstops
  exact ⟨s, hs, hstops, unload_run (by decide +kernel) hs⟩

/-- A thread with `total = 0` ends before its store assigns the handle; and a thread ends
    between the test of its field and the call. -/
theorem stale_handle :
    (run step State.init [.kthread_run 0 .null, .func 0 1, .func 0 1, .func 0 1, .assign 0,
      .exit true, .exit true, .exit true]).map State.stops = some [(0, true)] ∧
    (run step State.init [.kthread_run 0 .null, .assign 0, .exit true, .exit true, .func 0 1,
      .func 0 1, .func 0 1, .exit true]).map State.stops = some [(0, true)] := by
  decide +kernel

end KernelBasecamp.Messanger.Unload
