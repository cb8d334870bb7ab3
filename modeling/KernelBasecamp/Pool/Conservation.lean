/-
  No block is lost, doubled or overtaken in the thread pool.

  The pool refines the work ledger: a worker in one of the two `for` loops holds the block it
  took, and a block is settled when it is finished or abandoned. Each step of the pool leaves
  the ledger as it is or is one step of it (`step_refines`). Blocks are appended once because
  `malloc` names them apart (`Fresh`).

  * `blocks_run`: after every run each block ever appended is in exactly one place, blocks are
    taken in the order in which they were appended, and none is abandoned while `enabled` is
    set. The run may stop anywhere, so this covers the state in which a worker is about to
    crash.
-/
import KernelBasecamp.Lib.WorkLedger
import KernelBasecamp.Pool.Steps

namespace KernelBasecamp.Pool

open KernelBasecamp.Lib

/-! ## The ledger of a state -/

inductive Fate where
  | finished
  | abandoned
  deriving DecidableEq, Repr

/-- The block a worker holds. -/
def Pc.held : Pc → Option Block
  | .outer b _ => some b
  | .inner b _ _ => some b
  | .slept b _ _ => some b
  | _ => none

def State.settled (s : State) : Fate → List (Worker × Block)
  | .finished => s.finished
  | .abandoned => s.abandoned

def State.ledger (s : State) : Ledger Worker Block Fate where
  queue := s.data_list
  held w := (s.pc w).held
  appended := s.appended
  taken := s.taken
  settled := s.settled

theorem held_update (pc : Worker → Pc) (w : Worker) (p : Pc) :
    (fun v => (Function.update pc w p v).held) =
      Function.update (fun v => (pc v).held) w p.held := by
  funext v
  exact Function.apply_update (fun _ q => Pc.held q) pc w p v

theorem ledger_held {s : State} {w : Worker} {p : Pc} (hpc : s.pc w = p) :
    s.ledger.held w = p.held := by
  change (s.pc w).held = p.held
  rw [hpc]

theorem ledger_goto (s : State) (w : Worker) (p : Pc) :
    (s.goto w p).ledger =
      { s.ledger with held := Function.update s.ledger.held w p.held } := by
  unfold State.ledger
  rw [goto_pc, held_update]
  rfl

/-- A worker that keeps what it holds leaves the ledger alone. -/
theorem ledger_goto_same {s : State} {w : Worker} {p : Pc} (h : p.held = (s.pc w).held) :
    (s.goto w p).ledger = s.ledger := by
  rw [ledger_goto, h]
  have hsame : Function.update s.ledger.held w (s.pc w).held = s.ledger.held :=
    Function.update_eq_self w s.ledger.held
  rw [hsame]

theorem settled_finish (s : State) (x : Worker × Block) :
    State.settled { s with finished := s.finished ++ [x] } =
      Function.update s.settled .finished (s.settled .finished ++ [x]) := by
  funext f
  cases f with
  | finished => rw [Function.update_self]; rfl
  | abandoned => rw [Function.update_of_ne (by decide)]; rfl

theorem settled_abandon (s : State) (x : Worker × Block) :
    State.settled { s with abandoned := s.abandoned ++ [x] } =
      Function.update s.settled .abandoned (s.settled .abandoned ++ [x]) := by
  funext f
  cases f with
  | finished => rw [Function.update_of_ne (by decide)]; rfl
  | abandoned => rw [Function.update_self]; rfl

/-! ## The pool refines the ledger -/

/-- The blocks appended so far were named before the next one. -/
structure Fresh (s : State) : Prop where
  ids : ∀ b ∈ s.appended, b.id < s.appended.length
  pending : ∀ d, s.main = .appendLock d ∨ s.main = .appendBody d → d.id = s.appended.length

theorem Fresh.not_mem {s : State} (h : Fresh s) {d : Block} (hd : s.main = .appendBody d) :
    d ∉ s.appended := by
  intro hmem
  have hlt := h.ids d hmem
  have hid := h.pending d (.inr hd)
  omega

/-- Each step of the pool leaves the ledger as it is or is one step of it. -/
theorem step_refines {s s' : State} {a : Act} (hf : Fresh s) (hs : Step s a s') :
    s'.ledger = s.ledger ∨ LStep s.ledger s'.ledger := by
  cases hs with
  | take w b rest hpc hlist =>
      right
      have hfree : s.ledger.held w = none := ledger_held hpc
      rw [ledger_goto]
      exact .take w b rest hfree hlist
  | finish w b i hpc hi =>
      right
      have hheld : s.ledger.held w = some b := ledger_held hpc
      have hstep := LStep.settle w b Fate.finished hheld
      rw [ledger_goto]
      unfold State.ledger at hstep ⊢
      rw [settled_finish]
      exact hstep
  | abandon w b i j hpc hen =>
      right
      have hheld : s.ledger.held w = some b := ledger_held hpc
      have hstep := LStep.settle w b Fate.abandoned hheld
      rw [ledger_goto]
      unfold State.ledger at hstep ⊢
      rw [settled_abandon]
      exact hstep
  | append o d hmain =>
      right
      exact .append d (hf.not_mem hmain)
  -- every other step moves a party that keeps what it holds
  | enter w hpc | leave w hpc | pass w hpc | check w hpc | round w b i hpc
  | next w b i j hpc =>
      left
      apply ledger_goto_same
      rw [hpc]
      rfl
  | lock w hpc | wait w hpc | relock w hpc | giveUp w hpc | put w b i j hpc
  | space w b i j hpc | wake w _ hpc =>
      left
      refine ledger_goto_same (s := { s with mutex := _, main := _, screen := _, column := _ }) ?_
      change _ = (s.pc w).held
      rw [hpc]
      rfl
  | create | appendLock | lost | quit | disable | signalled | join =>
      left
      rfl

/-! ## The invariant -/

structure Conserved (s : State) : Prop where
  good : Good s.ledger
  fresh : Fresh s
  quiet : s.enabled = true → s.abandoned = []

theorem ledger_init : State.init.ledger = ⟨[], fun _ => none, [], [], fun _ => []⟩ := by
  unfold State.ledger
  congr 1
  funext f
  cases f <;> rfl

theorem conserved_init : Conserved State.init where
  good := by
    rw [ledger_init]
    exact Good.empty
  fresh := ⟨by simp [State.init], by simp [State.init]⟩
  quiet := fun _ => rfl

theorem fresh_step {s s' : State} {a : Act} (h : Fresh s) (hs : Step s a s') : Fresh s' := by
  obtain ⟨hids, hpend⟩ := h
  cases hs with
  | create c l n hmain =>
      refine ⟨hids, fun d hd => ?_⟩
      rcases hd with hd | hd
      · cases hd
        rfl
      · cases hd
  | appendLock o d hmain hfree =>
      refine ⟨hids, fun d' hd => ?_⟩
      rcases hd with hd | hd
      · cases hd
      · cases hd
        exact hpend d (.inl hmain)
  | append o d hmain =>
      have hd := hpend d (.inr hmain)
      refine ⟨fun b hb => ?_, fun d' hd' => ?_⟩
      · rw [List.length_append, List.length_singleton]
        rcases List.mem_append.mp hb with hb | hb
        · have hlt := hids b hb
          omega
        · rw [List.mem_singleton.mp hb]
          omega
      · rcases hd' with hd' | hd' <;> cases hd'
  | wake v next hpc hmain =>
      refine ⟨hids, fun d hd => ?_⟩
      change next = _ ∨ next = _ at hd
      rcases hmain with ⟨-, rfl⟩ | ⟨i, -, -, rfl⟩ <;> simp at hd
  | lost next hpc hmain =>
      refine ⟨hids, fun d hd => ?_⟩
      change next = _ ∨ next = _ at hd
      rcases hmain with ⟨-, rfl⟩ | ⟨i, -, -, rfl⟩ <;> simp at hd
  | quit | disable | signalled | join =>
      refine ⟨hids, fun d hd => ?_⟩
      rcases hd with hd | hd <;> cases hd
  -- a worker does not touch `appended` or the main thread
  | _ => exact ⟨hids, hpend⟩

theorem quiet_step {s s' : State} {a : Act} (h : s.enabled = true → s.abandoned = [])
    (hs : Step s a s') : s'.enabled = true → s'.abandoned = [] := by
  cases hs with
  | abandon w b i j hpc hen =>
      intro hen'
      change s.enabled = true at hen'
      rw [hen] at hen'
      cases hen'
  | disable =>
      intro hen'
      cases hen'
  | _ => exact h

theorem conserved_step {s s' : State} {a : Act} (h : Conserved s) (hs : step s a = some s') :
    Conserved s' := by
  have hstep := step_cases hs
  refine ⟨?_, fresh_step h.fresh hstep, quiet_step h.quiet hstep⟩
  rcases step_refines h.fresh hstep with hsame | hl
  · rw [hsame]
    exact h.good
  · exact h.good.step hl

/-- After every run: each block ever appended is in exactly one place, and only such blocks
    are anywhere; no block is finished or abandoned twice; the blocks taken so far, followed by
    those in `data_list`, are the appended ones in their order; and a block is abandoned only
    once `enabled` is 0. -/
theorem blocks_run {acts : List Act} {s : State} (hrun : run step State.init acts = some s) :
    s.appended.Nodup ∧
    (∀ b ∈ s.appended, ∃! p, s.ledger.At b p) ∧
    (∀ b p, s.ledger.At b p → b ∈ s.appended) ∧
    (∀ f, ((s.settled f).map Prod.snd).Nodup) ∧
    s.taken.map Prod.snd ++ s.data_list = s.appended ∧
    (s.abandoned ≠ [] → s.enabled = false) := by
  have h : Conserved s := run_invariant Conserved conserved_init
    (fun _ _ _ hI hs => conserved_step hI hs) hrun
  refine ⟨h.good.fresh, fun b hb => h.good.exists_unique_place hb,
    fun b p hp => h.good.appended_iff_place.mpr ⟨p, hp⟩, h.good.settled_items_nodup,
    h.good.order, fun hne => ?_⟩
  by_contra hen
  exact hne (h.quiet (by simpa using hen))

/-- Worker 0 takes the one block appended and abandons it when the pool is shut down. -/
def abandonActs : List Act :=
  [.append 97 2 1, .main none, .main none, .main none,
   .worker 0, .worker 0, .worker 0, .worker 0, .worker 0, .worker 0, .worker 0,
   .quit, .main none, .worker 0]

theorem blocks_run_abandoned : ∃ s, run step State.init abandonActs = some s ∧
    s.abandoned = [(0, ⟨0, 97, 2, 1⟩)] ∧ ∀ b ∈ s.appended, ∃! p, s.ledger.At b p := by
  obtain ⟨s, hs⟩ := Option.isSome_iff_exists.mp
    (by decide : (run step State.init abandonActs).isSome = true)
  have ha : (run step State.init abandonActs).map State.abandoned =
      some [(0, ⟨0, 97, 2, 1⟩)] := by decide
  rw [hs] at ha
  exact ⟨s, hs, Option.some.inj ha, (blocks_run hs).2.1⟩

end KernelBasecamp.Pool
