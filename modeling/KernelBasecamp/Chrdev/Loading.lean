/-
  The device of fixdev.c from its loading on: `dev_init` and `dev_exit` around the calls of the
  clients.

  A load starts from a fresh image, with `device_open` at 0 and `major` the module's parameter.
  The kernel counts a client among the users of the module from before `dev_open` to after
  `dev_release`, and does not unload a module that has users. The log has everything acquired
  and released since the first load.

  `fixdev_life`: the region and the device are held exactly while the module is loaded; what the
  clients find is a run of the device from its start; and a jam is ended by a reload, which is
  always possible then, and by nothing that the clients do.
-/
import KernelBasecamp.Chrdev.Exclusive
import KernelBasecamp.Lib.Resources

namespace KernelBasecamp.Chrdev

open Lib

inductive Resource where
  | region (major : Nat)
  | cdev
  deriving DecidableEq, Repr

/-- Which of the calls made by `dev_init` succeed, and the major number that
    `alloc_chrdev_region` hands out. -/
structure Answers where
  region : Bool
  dynamic : Nat
  cdev_add : Bool
  deriving DecidableEq, Repr

structure Module where
  major : Nat
  log : List (Event Resource)
  deriving DecidableEq, Repr

def Module.acquire (m : Module) (r : Resource) : Module := { m with log := m.log ++ [.acquire r] }

def Module.release (m : Module) (r : Resource) : Module := { m with log := m.log ++ [.release r] }

/-- The second component is whether the result is not negative. -/
def dev_init (o : Answers) (m : Module) : Module × Bool :=
  -- `register_chrdev_region` or `alloc_chrdev_region`
  let m := { m with major := if m.major ≠ 0 then m.major else o.dynamic }
  if o.region then
    let m := m.acquire (.region m.major)
    if o.cdev_add then (m.acquire .cdev, true)
    else (m.release (.region m.major), false)
  else (m, false)

def dev_exit (m : Module) : Module := (m.release .cdev).release (.region m.major)

structure System (ι : Type) where
  state : Module
  loaded : Bool
  dev : State ι

def System.init {ι : Type} : System ι := ⟨⟨0, []⟩, false, State.init⟩

inductive Call (ι : Type) where
  | insmod (major : Nat) (o : Answers)
  | rmmod
  | client (a : Act ι)

variable {ι : Type} [DecidableEq ι] [Fintype ι]

def System.step (s : System ι) : Call ι → Option (System ι)
  | .insmod major o =>
      if s.loaded then none
      else
        let (state, loaded) := dev_init o { s.state with major }
        some ⟨state, loaded, State.init⟩
  | .rmmod =>
      if s.loaded = true ∧ ∀ c, s.dev.point c = .closed then
        some { s with state := dev_exit s.state, loaded := false }
      else none
  | .client a =>
      if s.loaded then (Chrdev.step s.dev a).map fun dev => { s with dev } else none

/-! ## What is held -/

theorem holding_nil_of_release {log : List (Event Resource)} {major : Nat}
    (h : Holding log [.region major]) : Holding (log ++ [.release (.region major)]) [] := by
  refine (h.release (List.nodup_singleton _) fun r hr => hr).congr fun r => ?_
  simp

/-- A load holds both resources if it succeeds, and nothing otherwise. -/
theorem dev_init_spec {m : Module} (h : Holding m.log []) (o : Answers) :
    ((dev_init o m).2 = true ↔ o.region = true ∧ o.cdev_add = true) ∧
    ((dev_init o m).2 = true →
      Holding (dev_init o m).1.log [.region (dev_init o m).1.major, .cdev]) ∧
    ((dev_init o m).2 = false → Holding (dev_init o m).1.log []) := by
  obtain ⟨major, hmajor⟩ : ∃ major, (if m.major ≠ 0 then m.major else o.dynamic) = major := ⟨_, rfl⟩
  unfold dev_init
  rw [hmajor]
  dsimp only
  cases hregion : o.region with
  | false => exact ⟨by simp, fun hno => absurd hno Bool.false_ne_true, fun _ => h⟩
  | true =>
      have hreg : Holding (m.log ++ [.acquire (.region major)]) [.region major] :=
        h.acquire (List.nodup_singleton _) fun r _ => List.not_mem_nil
      cases hcdev : o.cdev_add with
      | false =>
          refine ⟨by simp, fun hno => absurd hno Bool.false_ne_true, fun _ => ?_⟩
          exact holding_nil_of_release hreg
      | true =>
          refine ⟨by simp, fun _ => ?_, fun hno => absurd hno.symm Bool.false_ne_true⟩
          refine hreg.acquire (List.nodup_singleton .cdev) fun r hr => ?_
          rw [List.mem_singleton.mp hr]
          simp

theorem dev_exit_spec {m : Module} (h : Holding m.log [.region m.major, .cdev]) :
    Holding (dev_exit m).log [] := by
  have hcdev : Holding (m.log ++ [.release .cdev]) [.region m.major] := by
    refine (h.release (List.nodup_singleton _) fun r hr => ?_).congr fun r => ?_
    · rw [List.mem_singleton.mp hr]
      simp
    · cases r with
      | region n => simp
      | cdev => simp
  exact holding_nil_of_release hcdev

/-! ## Any number of loads -/

/-- The module and its resources, and the calls since the last load. -/
structure InOrder (calls : List (Call ι)) (s : System ι) : Prop where
  held : s.loaded = true → Holding s.state.log [.region s.state.major, .cdev]
  free : s.loaded = false → Holding s.state.log []
  lifetime : s.loaded = true → ∃ before major o acts,
    calls = before ++ .insmod major o :: acts.map .client ∧
      run Chrdev.step State.init acts = some s.dev

theorem step_inOrder {calls : List (Call ι)} {s s' : System ι} {c : Call ι} (h : InOrder calls s)
    (hs : s.step c = some s') : InOrder (calls ++ [c]) s' := by
  cases c with
  | insmod major o =>
      obtain ⟨hout, hs⟩ := Option.ite_none_left_eq_some.mp hs
      have hfree := h.free (eq_false_of_ne_true hout)
      obtain ⟨-, hheld, hnone⟩ := dev_init_spec (m := { s.state with major }) hfree o
      cases hs
      exact ⟨hheld, hnone, fun _ => ⟨calls, major, o, [], rfl, rfl⟩⟩
  | rmmod =>
      obtain ⟨⟨hin, -⟩, hs⟩ := Option.ite_none_right_eq_some.mp hs
      have hfree := dev_exit_spec (h.held hin)
      cases hs
      exact ⟨fun hno => absurd hno Bool.false_ne_true, fun _ => hfree,
        fun hno => absurd hno Bool.false_ne_true⟩
  | client a =>
      obtain ⟨hin, hs⟩ := Option.ite_none_right_eq_some.mp hs
      obtain ⟨dev, hdev, hs⟩ := Option.map_eq_some_iff.mp hs
      cases hs
      refine ⟨h.held, h.free, fun _ => ?_⟩
      obtain ⟨before, major, o, acts, rfl, hacts⟩ := h.lifetime hin
      refine ⟨before, major, o, acts ++ [a], by simp, ?_⟩
      rw [run_concat, hacts]
      exact hdev

theorem inOrder_run {calls : List (Call ι)} {s : System ι}
    (hrun : run System.step System.init calls = some s) : InOrder calls s :=
  run_induct (C := fun _ _ => True) InOrder
    ⟨fun hno => absurd hno Bool.false_ne_true, fun _ => Holding.nil,
      fun hno => absurd hno Bool.false_ne_true⟩
    (fun _ _ _ _ h _ hs => step_inOrder h hs) (allSteps_true _ _) hrun

/-- The calls of the clients alone. -/
theorem run_clients {s : System ι} (hin : s.loaded = true) (acts : List (Act ι)) :
    run System.step s (acts.map .client) =
      (run Chrdev.step s.dev acts).map fun dev => { s with dev } := by
  induction acts generalizing s with
  | nil => rfl
  | cons a acts ih =>
      have hstep : s.step (.client a) = (Chrdev.step s.dev a).map fun dev => { s with dev } :=
        if_pos hin
      rw [List.map_cons, run_cons, run_cons, hstep]
      cases Chrdev.step s.dev a with
      | none => rfl
      | some dev => exact ih (s := { s with dev }) hin

/-- After any loads, unloads and calls of clients, whichever calls of the loads fail: a load
    succeeds just when neither of its calls fails; a loaded module holds its region and its
    device, and what its clients have done is a run of the device from its start; nothing is
    held when it is not loaded. When everybody has closed the device a reload starts it anew,
    and if it is jammed then, the clients cannot change that. -/
theorem fixdev_life {calls : List (Call ι)} {s : System ι}
    (hrun : run System.step System.init calls = some s) :
    (∀ major o s', s.step (.insmod major o) = some s' →
      (s'.loaded = true ↔ o.region = true ∧ o.cdev_add = true)) ∧
    (s.loaded = true → Holding s.state.log [.region s.state.major, .cdev] ∧
      ∃ before major o acts, calls = before ++ .insmod major o :: acts.map .client ∧
        run Chrdev.step State.init acts = some s.dev) ∧
    (s.loaded = false → Lib.Balanced s.state.log) ∧
    (s.loaded = true → (∀ c, s.dev.point c = .closed) → ∀ major o, o.region = true →
      o.cdev_add = true → ∃ s', run System.step s [.rmmod, .insmod major o] = some s' ∧
        s'.loaded = true ∧ s'.dev = State.init) ∧
    (s.loaded = true → Jammed s.dev → ∀ (acts : List (Act ι)) s',
      run System.step s (acts.map .client) = some s' → s' = s) := by
  have h := inOrder_run hrun
  have hload : ∀ {s : System ι}, Holding s.state.log [] → ∀ {major o s'},
      s.step (.insmod major o) = some s' →
        (s'.loaded = true ↔ o.region = true ∧ o.cdev_add = true) ∧ s'.dev = State.init := by
    intro s hfree major o s' hs
    obtain ⟨-, hs⟩ := Option.ite_none_left_eq_some.mp hs
    cases hs
    exact ⟨(dev_init_spec (m := { s.state with major }) hfree o).1, rfl⟩
  refine ⟨fun major o s' hs => ?_, fun hin => ⟨h.held hin, h.lifetime hin⟩, fun hout => ?_,
    fun hin hclosed major o hregion hcdev => ?_, fun hin hjam acts s' hs => ?_⟩
  · obtain ⟨hout, -⟩ := Option.ite_none_left_eq_some.mp hs
    exact (hload (h.free (eq_false_of_ne_true hout)) hs).1
  · exact (h.free hout).balanced_iff.mpr rfl
  · have hrmmod : s.step .rmmod = some { s with state := dev_exit s.state, loaded := false } :=
      if_pos ⟨hin, hclosed⟩
    obtain ⟨s', hs'⟩ : ∃ s', System.step { s with state := dev_exit s.state, loaded := false }
        (.insmod major o) = some s' := ⟨_, rfl⟩
    obtain ⟨hloaded, hdev⟩ := hload (dev_exit_spec (h.held hin)) hs'
    refine ⟨s', ?_, hloaded.mpr ⟨hregion, hcdev⟩, hdev⟩
    rw [run_cons, hrmmod, Option.bind_some, run_cons, hs']
    rfl
  · rw [run_clients hin] at hs
    obtain ⟨dev, hdev, rfl⟩ := Option.map_eq_some_iff.mp hs
    rw [jammed_run hjam hdev]

/-- Two clients open and close the device together. -/
theorem fixdev_life_jam : ∃ s : System Bool, Jammed s.dev ∧
    (∀ (acts : List (Act Bool)) s', run System.step s (acts.map .client) = some s' → s' = s) ∧
    ∃ s', run System.step s [.rmmod, .insmod 233 ⟨true, 0, true⟩] = some s' ∧
      s'.dev = State.init := by
  obtain ⟨s, hs, hin, hopen, hclosed⟩ : ∃ s ∈ run System.step (System.init : System Bool)
      (.insmod 233 ⟨true, 0, true⟩ :: [true, false, true, false, true, false, true, true, false,
        false].map fun c => .client (.call c)),
      s.loaded = true ∧ s.dev.device_open ≠ 0 ∧ ∀ c, s.dev.point c = .closed := by decide
  obtain ⟨-, -, -, hreload, hjam⟩ := fixdev_life hs
  obtain ⟨s', hs', -, hdev⟩ := hreload hin hclosed 233 ⟨true, 0, true⟩ rfl rfl
  exact ⟨s, ⟨hopen, hclosed⟩, hjam hin ⟨hopen, hclosed⟩, s', hs', hdev⟩

end KernelBasecamp.Chrdev
