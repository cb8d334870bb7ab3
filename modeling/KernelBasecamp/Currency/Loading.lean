/-
  Loading and unloading the currency module of task05 (exchange.c).

  What it has in common with the modules of exercise10 is `Procfs.Loading`. `e_init` also makes
  a class with a file before everything else, and none of its error exits removes them. It looks
  at the class pointer before `class_create` and not after. `class_create` fails when a class
  of this name is registered already, and then `class_create_file` dereferences the error
  pointer.

  `exchange_life`: a failed load leaves the class and its file behind, and no load after it can
  end otherwise than with a fault; before that, nothing is left over.
-/
import KernelBasecamp.Procfs.Loading

namespace KernelBasecamp.Currency.Loading

open Lib Procfs.Loading

inductive ProcFile where
  | uah_to_eu
  | eu_to_uah
  deriving DecidableEq, Repr

structure Answers where
  class_create : Bool
  class_create_file : Bool
  procfs : Procfs.Loading.Answers ProcFile

def files : List ProcFile := [.uah_to_eu, .eu_to_uah]

/-- The result of `class_create_file` is lost. -/
def e_init (o : Answers) (m : Module ProcFile) : Option (Module ProcFile × Int) :=
  if o.class_create && !m.devclass then
    let m := { m.acquire .devclass with devclass := true }
    let m := if o.class_create_file then { m.acquire .classfile with classfile := true } else m
    some (load files o.procfs m)
  else none

def e_exit (m : Module ProcFile) : Module ProcFile :=
  let m := unload files m
  let m := if m.classfile then { m.release .classfile with classfile := false } else m
  { m.release .devclass with devclass := false }

def step (s : Life ProcFile) : Procfs.Loading.Act Answers → Option (Life ProcFile)
  | .insmod o =>
      if s.loaded then none
      else (e_init o s.state.image).map fun r => ⟨r.1, r.2 = 0⟩
  | .rmmod => if s.loaded then some ⟨e_exit s.state, false⟩ else none

/-- Every call of the load that can fail it succeeds. -/
def Answers.Loads (o : Answers) : Prop := o.procfs.Good files

/-- The class and its file, if it could be made. -/
def Answers.remains (o : Answers) : List (Resource ProcFile) :=
  .devclass :: if o.class_create_file then [.classfile] else []

/-! ## One load and one unload -/

structure InOrder (s : Life ProcFile) : Prop where
  tidy : Tidy s.state
  full : s.loaded = true → Full files s.state ∧ s.state.devclass = true
  clear : s.loaded = false → Clear s.state ∧ s.state.devclass = false ∧ s.state.classfile = false

/-- After a failed load. -/
structure Wrecked (o : Answers) (s : Life ProcFile) : Prop where
  tidy : Tidy s.state
  unloaded : s.loaded = false
  clear : Clear s.state
  devclass : s.state.devclass = true
  classfile : s.state.classfile = o.class_create_file

/-- The class and its file, before the rest of `e_init`. -/
theorem class_spec {m : Module ProcFile} (h : Tidy m) (hclass : m.devclass = false)
    (hfile : m.classfile = false) (ok : Bool) : ∃ m', Tidy m' ∧
      (let m := { m.acquire .devclass with devclass := true }
        if ok then { m.acquire .classfile with classfile := true } else m) = m' ∧
      m'.devclass = true ∧ m'.classfile = ok ∧ (Clear m → Clear m') := by
  have hmade : Tidy { m.acquire .devclass with devclass := true } := by
    refine h.acquire (r := .devclass) hclass rfl fun q => ?_
    cases q with
    | devclass => rfl
    | buffer n | dir | file f | classfile => exact (Bool.false_or _).symm
  refine ⟨_, ?_, rfl, ?_⟩
  · dsimp only
    split
    · refine hmade.acquire (r := .classfile) hfile rfl fun q => ?_
      cases q with
      | classfile => rfl
      | buffer n | dir | file f | devclass => exact (Bool.false_or _).symm
    · exact hmade
  · cases ok with
    | true => exact ⟨rfl, rfl, fun hclear => hclear⟩
    | false => exact ⟨rfl, hfile, fun hclear => hclear⟩

theorem e_init_spec {m : Module ProcFile} {o : Answers} {r : Module ProcFile × Int} (h : Tidy m)
    (hclear : Clear m) (hclass : m.devclass = false) (hfile : m.classfile = false)
    (hr : e_init o m = some r) :
    Tidy r.1 ∧ r.1.devclass = true ∧ r.1.classfile = o.class_create_file ∧
      (r.2 = 0 ↔ o.Loads) ∧ (r.2 = 0 → Full files r.1) ∧ (r.2 ≠ 0 → Clear r.1) := by
  obtain ⟨-, hr⟩ := Option.ite_none_right_eq_some.mp hr
  obtain ⟨m', htidy, heq, hdevclass, hclassfile, hkept⟩ :=
    class_spec h hclass hfile o.class_create_file
  dsimp only at hr heq
  rw [heq] at hr
  obtain ⟨hend, hsame, hres, hfull, hfailed⟩ :=
    load_spec (o := o.procfs) htidy (hkept hclear) (show files.Nodup by decide)
  cases hr
  exact ⟨hend, hsame.1.trans hdevclass, hsame.2.trans hclassfile, hres, hfull, hfailed⟩

theorem e_exit_spec {m : Module ProcFile} (h : Tidy m) (hfull : Full files m)
    (hclass : m.devclass = true) :
    Tidy (e_exit m) ∧ Clear (e_exit m) ∧ (e_exit m).devclass = false ∧
      (e_exit m).classfile = false := by
  have hown : ∀ f, f ∉ files → m.proc_file f = false := by
    intro f hf
    rw [hfull.2.2 f, decide_eq_false hf]
  obtain ⟨htidy, hclear, hsame⟩ := unload_spec h hown
  obtain ⟨m', hremoved, heq, hnofile, hdevclass, hkept⟩ : ∃ m', Tidy m' ∧
      (if (unload files m).classfile then
        { (unload files m).release .classfile with classfile := false } else unload files m) = m' ∧
      m'.classfile = false ∧ m'.devclass = true ∧ Clear m' := by
    by_cases hset : (unload files m).classfile = true
    · rw [if_pos hset]
      refine ⟨{ (unload files m).release .classfile with classfile := false },
        htidy.release (r := .classfile) hset rfl fun q => ?_, rfl, rfl,
        hsame.1.trans hclass, hclear⟩
      cases q with
      | classfile => rfl
      | buffer n | dir | file f | devclass => exact (Bool.true_and _).symm
    · rw [if_neg hset]
      exact ⟨_, htidy, rfl, eq_false_of_ne_true hset, hsame.1.trans hclass, hclear⟩
  unfold e_exit
  dsimp only
  rw [heq]
  refine ⟨hremoved.release (r := .devclass) hdevclass rfl fun q => ?_, hkept, rfl, hnofile⟩
  cases q with
  | devclass => rfl
  | buffer n | dir | file f | classfile => exact (Bool.true_and _).symm

/-! ## Any number of loads and unloads -/

theorem step_inOrder {s s' : Life ProcFile} {a : Procfs.Loading.Act Answers} (h : InOrder s)
    (hs : step s a = some s') :
    (∀ o, a = .insmod o → o.Loads) ∧ InOrder s' ∨
      ∃ o, a = .insmod o ∧ ¬ o.Loads ∧ Wrecked o s' := by
  cases a with
  | insmod o =>
      obtain ⟨hout, hs⟩ := Option.ite_none_left_eq_some.mp hs
      obtain ⟨hclear, hclass, hfile⟩ := h.clear (eq_false_of_ne_true hout)
      rw [image_of_clear hclear] at hs
      obtain ⟨r, hr, hs⟩ := Option.map_eq_some_iff.mp hs
      obtain ⟨htidy, hdevclass, hclassfile, hres, hfull, hfailed⟩ :=
        e_init_spec h.tidy hclear hclass hfile hr
      cases hs
      by_cases hok : r.2 = 0
      · refine .inl ⟨fun o' ho => ?_, htidy, fun _ => ⟨hfull hok, hdevclass⟩, fun hno => ?_⟩
        · cases ho
          exact hres.mp hok
        · exact absurd hok (of_decide_eq_false hno)
      · exact .inr ⟨o, rfl, fun hall => hok (hres.mpr hall), htidy, decide_eq_false hok,
          hfailed hok, hdevclass, hclassfile⟩
  | rmmod =>
      obtain ⟨hin, hs⟩ := Option.ite_none_right_eq_some.mp hs
      obtain ⟨hfull, hclass⟩ := h.full hin
      obtain ⟨htidy, hclear, hnoclass, hnofile⟩ := e_exit_spec h.tidy hfull hclass
      cases hs
      exact .inl ⟨fun o ho => (nomatch ho), htidy, fun hno => absurd hno Bool.false_ne_true,
        fun _ => ⟨hclear, hnoclass, hnofile⟩⟩

/-- The class that is left behind makes every further load fault. -/
theorem step_wrecked {o : Answers} {s : Life ProcFile} (h : Wrecked o s)
    (a : Procfs.Loading.Act Answers) :
    step s a = none := by
  cases a with
  | rmmod => exact if_neg (by rw [h.unloaded]; exact Bool.false_ne_true)
  | insmod o' =>
      have himage : s.state.image.devclass = true := h.devclass
      unfold step e_init
      simp only [h.unloaded, himage, Bool.not_true, Bool.and_false, Bool.false_eq_true, if_false,
        Option.map_none]

theorem holding_wrecked {o : Answers} {s : Life ProcFile} (h : Wrecked o s) :
    Holding s.state.log o.remains := by
  unfold Holding
  rw [show holds s.state.log = some s.state.owns from h.tidy]
  congr 1
  funext q
  unfold Answers.remains
  cases q with
  | buffer n => simp [Module.owns, h.clear.1]
  | dir => simp [Module.owns, h.clear.2.1]
  | file f => simp [Module.owns, h.clear.2.2]
  | devclass => simp [Module.owns, h.devclass]
  | classfile => simp [Module.owns, h.classfile]

/-- Over any number of loads and unloads, whichever calls fail. Either every load has
    succeeded; then a loaded module holds its buffer, its directory, its two files, its class and
    perhaps the class's file, and nothing is left when it is unloaded. Or the last step was the
    first load to fail; then the class is left, with its file if it has one, and no further step
    is possible. -/
theorem exchange_life {acts : List (Procfs.Loading.Act Answers)} {s : Life ProcFile}
    (hrun : run step Life.init acts = some s) :
    ((∀ o, .insmod o ∈ acts → o.Loads) ∧
      (s.loaded = true → ∃ n, ∃ a : Bool, Holding s.state.log ([.buffer n, .dir, .file .uah_to_eu,
        .file .eu_to_uah, .devclass] ++ if a then [.classfile] else [])) ∧
      (s.loaded = false → Lib.Balanced s.state.log)) ∨
    ∃ before o, acts = before ++ [.insmod o] ∧ (∀ o', .insmod o' ∈ before → o'.Loads) ∧
      ¬ o.Loads ∧ Holding s.state.log o.remains ∧ ∀ a, step s a = none := by
  have hinit : InOrder (Life.init : Life ProcFile) :=
    ⟨tidy_init, fun hno => absurd hno Bool.false_ne_true,
      fun _ => ⟨⟨rfl, rfl, fun _ => rfl⟩, rfl, rfl⟩⟩
  have h : (∀ o, .insmod o ∈ acts → o.Loads) ∧ InOrder s ∨
      ∃ before o, acts = before ++ [.insmod o] ∧ (∀ o', .insmod o' ∈ before → o'.Loads) ∧
        ¬ o.Loads ∧ Wrecked o s := by
    refine run_induct (C := fun _ _ => True) (fun acts s =>
      (∀ o, .insmod o ∈ acts → o.Loads) ∧ InOrder s ∨
        ∃ before o, acts = before ++ [.insmod o] ∧ (∀ o', .insmod o' ∈ before → o'.Loads) ∧
          ¬ o.Loads ∧ Wrecked o s)
      (.inl ⟨fun o ho => absurd ho List.not_mem_nil, hinit⟩) ?_ (allSteps_true _ _) hrun
    rintro acts s a s' (⟨hall, h⟩ | ⟨before, o, -, -, -, h⟩) - hs
    · rcases step_inOrder h hs with ⟨hload, h'⟩ | ⟨o, rfl, hfails, h'⟩
      · refine .inl ⟨fun o ho => ?_, h'⟩
        rcases List.mem_append.mp ho with ho | ho
        · exact hall o ho
        · exact hload o (List.mem_singleton.mp ho).symm
      · exact .inr ⟨acts, o, rfl, hall, hfails, h'⟩
    · rw [step_wrecked h a] at hs
      cases hs
  rcases h with ⟨hall, h⟩ | ⟨before, o, hacts, hall, hfails, h⟩
  · refine .inl ⟨hall, fun hin => ?_, fun hout => ?_⟩
    · obtain ⟨n, hn⟩ := holding_of_full h.tidy (h.full hin).1
      rw [(h.full hin).2] at hn
      exact ⟨n, s.state.classfile, hn⟩
    · obtain ⟨hclear, hclass, hfile⟩ := h.clear hout
      exact balanced_of_clear h.tidy hclear hclass hfile
  · exact .inr ⟨before, o, hacts, hall, hfails, holding_wrecked h, step_wrecked h⟩

def faultless : Answers := ⟨true, true, true, true, fun _ => true⟩

/-- The second load fails at its second file. -/
theorem exchange_life_second : ∃ s : Life ProcFile,
    run step Life.init [.insmod faultless, .rmmod,
      .insmod ⟨true, true, true, true, fun f => f = .uah_to_eu⟩] = some s ∧
    Holding s.state.log [.devclass, .classfile] ∧ step s (.insmod faultless) = none := by
  obtain ⟨s, hs, hout⟩ : ∃ s ∈ run step Life.init [.insmod faultless, .rmmod,
      .insmod ⟨true, true, true, true, fun f => f = .uah_to_eu⟩], s.loaded = false := by decide
  rcases exchange_life hs with ⟨hall, -⟩ | ⟨before, o, hacts, -, -, hholding, hstuck⟩
  · have hload := hall ⟨true, true, true, true, fun f => f = .uah_to_eu⟩ (by simp)
    exact absurd (hload.2.2 .eu_to_uah (by decide)) (by decide)
  · have hacts : [Procfs.Loading.Act.insmod faultless, .rmmod] ++
        [.insmod ⟨true, true, true, true, fun f => f = .uah_to_eu⟩] = before ++ [.insmod o] := hacts
    obtain ⟨-, hlast⟩ := List.append_inj' hacts rfl
    obtain rfl := Procfs.Loading.Act.insmod.inj (List.singleton_inj.mp hlast)
    exact ⟨s, hs, hholding, hstuck _⟩

end KernelBasecamp.Currency.Loading
