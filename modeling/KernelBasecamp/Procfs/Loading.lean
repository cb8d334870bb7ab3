/-
  Loading and unloading the modules with files under /proc: rw.c of exercise10 (its two parts
  are the same here) and exchange.c of task05, which have these functions in common.

  A `Module` is what the code keeps in its static pointers, with the log of everything acquired
  and released since the first load. A load starts from a fresh image, whose pointers are null.
  Which of the calls of a load succeed is in its `Answers`. `devclass` and `classfile` say
  whether a class of the module, and its file, are there; the modules of exercise10 have none.

  `Tidy` says that the log replays and that exactly what the pointers stand for is held. Every
  function keeps it, and `life_run` follows it over any number of loads and unloads.
-/
import KernelBasecamp.Lib.Resources

namespace KernelBasecamp.Procfs.Loading

open Lib

def ENOMEM : Int := 12
def EFAULT : Int := 14

inductive Resource (φ : Type) where
  /-- what the `n`-th successful `kmalloc` returned -/
  | buffer (n : Nat)
  | dir
  | file (f : φ)
  | devclass
  | classfile
  deriving DecidableEq, Repr

structure Answers (φ : Type) where
  kmalloc : Bool
  proc_mkdir : Bool
  proc_create : φ → Bool

/-- `proc_buffer` is the number of its `kmalloc`, the other pointers are kept as whether they
    are set. -/
structure Module (φ : Type) where
  proc_buffer : Option Nat
  proc_dir : Bool
  proc_file : φ → Bool
  devclass : Bool
  classfile : Bool
  kmallocs : Nat
  log : List (Event (Resource φ))

variable {φ : Type} [DecidableEq φ]

namespace Module

/-- Before the first load. -/
def init : Module φ := ⟨none, false, fun _ => false, false, false, 0, []⟩

/-- The pointers of a fresh image. -/
def image (m : Module φ) : Module φ :=
  { m with proc_buffer := none, proc_dir := false, proc_file := fun _ => false }

def acquire (m : Module φ) (r : Resource φ) : Module φ := { m with log := m.log ++ [.acquire r] }

def release (m : Module φ) (r : Resource φ) : Module φ := { m with log := m.log ++ [.release r] }

end Module

/-! ## The functions in common -/

def create_buffer (m : Module φ) (ok : Bool) : Module φ × Int :=
  if ok then
    ({ m.acquire (.buffer m.kmallocs) with
      proc_buffer := some m.kmallocs, kmallocs := m.kmallocs + 1 }, 0)
  else ({ m with proc_buffer := none }, -ENOMEM)

def cleanup_buffer (m : Module φ) : Module φ :=
  match m.proc_buffer with
  | some n => { m.release (.buffer n) with proc_buffer := none }
  | none => m

/-- One `proc_create` after the other, up to the first that fails. -/
def create_files (o : Answers φ) : List φ → Module φ → Module φ × Int
  | [], m => (m, 0)
  | f :: fs, m =>
      if o.proc_create f then
        create_files o fs
          { m.acquire (.file f) with proc_file := Function.update m.proc_file f true }
      else ({ m with proc_file := Function.update m.proc_file f false }, -EFAULT)

def create_proc_example (files : List φ) (o : Answers φ) (m : Module φ) : Module φ × Int :=
  if o.proc_mkdir then create_files o files { m.acquire .dir with proc_dir := true }
  else ({ m with proc_dir := false }, -EFAULT)

def cleanup_file (m : Module φ) (f : φ) : Module φ :=
  if m.proc_file f then
    { m.release (.file f) with proc_file := Function.update m.proc_file f false }
  else m

def cleanup_proc_example (files : List φ) (m : Module φ) : Module φ :=
  let m := files.foldl cleanup_file m
  if m.proc_dir then { m.release .dir with proc_dir := false } else m

/-- What the exit functions have in common, and the error exits of the init functions. -/
def unload (files : List φ) (m : Module φ) : Module φ :=
  cleanup_buffer (cleanup_proc_example files m)

/-- What the init functions have in common, and their result. -/
def load (files : List φ) (o : Answers φ) (m : Module φ) : Module φ × Int :=
  let (m, err) := create_buffer m o.kmalloc
  if err ≠ 0 then (unload files m, err)
  else
    let (m, err) := create_proc_example files o m
    if err ≠ 0 then (unload files m, err) else (m, 0)

/-! ## exercise10 -/

inductive ProcFile where
  | buffer
  deriving DecidableEq, Repr

def example_init (o : Answers ProcFile) (m : Module ProcFile) : Module ProcFile × Int :=
  load [.buffer] o m

def example_exit (m : Module ProcFile) : Module ProcFile :=
  unload [.buffer] m

inductive Act (α : Type) where
  | insmod (o : α)
  | rmmod

structure Life (φ : Type) where
  state : Module φ
  loaded : Bool

def Life.init : Life φ := ⟨Module.init, false⟩

def step (s : Life ProcFile) : Act (Answers ProcFile) → Option (Life ProcFile)
  | .insmod o =>
      if s.loaded then none
      else
        let (m, err) := example_init o s.state.image
        some ⟨m, err = 0⟩
  | .rmmod => if s.loaded then some ⟨example_exit s.state, false⟩ else none

/-! ## What is held -/

/-- What the pointers stand for. -/
def Module.owns (m : Module φ) : Resource φ → Bool
  | .buffer n => m.proc_buffer = some n
  | .dir => m.proc_dir
  | .file f => m.proc_file f
  | .devclass => m.devclass
  | .classfile => m.classfile

def Tidy (m : Module φ) : Prop := holds m.log = some m.owns

/-- No pointer is set. -/
def Clear (m : Module φ) : Prop :=
  m.proc_buffer = none ∧ m.proc_dir = false ∧ ∀ f, m.proc_file f = false

/-- All pointers are set. -/
def Full (files : List φ) (m : Module φ) : Prop :=
  m.proc_buffer ≠ none ∧ m.proc_dir = true ∧ ∀ f, m.proc_file f = decide (f ∈ files)

/-- The class and its file are as they were. -/
def SameClass (m m' : Module φ) : Prop := m'.devclass = m.devclass ∧ m'.classfile = m.classfile

/-- Every call of a load succeeds. -/
def Answers.Good (o : Answers φ) (files : List φ) : Prop :=
  o.kmalloc = true ∧ o.proc_mkdir = true ∧ ∀ f ∈ files, o.proc_create f = true

section

variable {m m' : Module φ} {files : List φ} {o : Answers φ}

theorem Tidy.acquire (h : Tidy m) {r : Resource φ} (hr : m.owns r = false)
    (hlog : m'.log = (m.acquire r).log) (howns : ∀ q, m'.owns q = (decide (q = r) || m.owns q)) :
    Tidy m' := by
  have hupdate : m'.owns = Function.update m.owns r true := by
    funext q
    rw [howns q, Function.update_apply]
    split
    · next hq => rw [decide_eq_true hq, Bool.true_or]
    · next hq => rw [decide_eq_false hq, Bool.false_or]
  unfold Tidy holds at h ⊢
  rw [hlog, hupdate]
  unfold Module.acquire
  rw [run_concat, h, Option.bind_some]
  exact if_neg (by rw [hr]; exact Bool.false_ne_true)

theorem Tidy.release (h : Tidy m) {r : Resource φ} (hr : m.owns r = true)
    (hlog : m'.log = (m.release r).log) (howns : ∀ q, m'.owns q = (!decide (q = r) && m.owns q)) :
    Tidy m' := by
  have hupdate : m'.owns = Function.update m.owns r false := by
    funext q
    rw [howns q, Function.update_apply]
    split
    · next hq => rw [decide_eq_true hq, Bool.not_true, Bool.false_and]
    · next hq => rw [decide_eq_false hq, Bool.not_false, Bool.true_and]
  unfold Tidy holds at h ⊢
  rw [hlog, hupdate]
  unfold Module.release
  rw [run_concat, h, Option.bind_some]
  exact if_pos hr

/-! ## One function after the other -/

theorem create_buffer_spec (h : Tidy m) (hnone : m.proc_buffer = none) (ok : Bool) :
    Tidy (create_buffer m ok).1 ∧ (create_buffer m ok).2 = (if ok then 0 else -ENOMEM) ∧
      (ok = true → (create_buffer m ok).1.proc_buffer ≠ none) := by
  unfold create_buffer
  cases ok with
  | false =>
      refine ⟨?_, rfl, fun h => absurd h (by decide)⟩
      rw [if_neg Bool.false_ne_true, ← hnone]
      exact h
  | true =>
      refine ⟨h.acquire (r := .buffer m.kmallocs) ?_ rfl fun q => ?_, rfl, fun _ => ?_⟩
      · exact decide_eq_false (by rw [hnone]; exact nofun)
      · cases q with
        | buffer n => simp [Module.owns, Module.acquire, hnone, eq_comm]
        | dir | file f | devclass | classfile => rfl
      · exact Option.some_ne_none _

theorem cleanup_buffer_spec (h : Tidy m) :
    Tidy (cleanup_buffer m) ∧ (cleanup_buffer m).proc_buffer = none := by
  unfold cleanup_buffer
  split
  · next n hn =>
      refine ⟨h.release (r := .buffer n) (decide_eq_true hn) rfl fun q => ?_, rfl⟩
      cases q with
      | buffer k => simp [Module.owns, hn, eq_comm]
      | dir | file f | devclass | classfile => rfl
  · next hnone => exact ⟨h, hnone⟩

theorem owns_file (m : Module φ) (f : φ) (b : Bool) (log : List (Event (Resource φ)))
    (q : Resource φ) :
    Module.owns { m with log, proc_file := Function.update m.proc_file f b } q =
      if q = .file f then b else m.owns q := by
  cases q with
  | file g => simp [Module.owns, Function.update_apply]
  | buffer n | dir | devclass | classfile => exact (if_neg nofun).symm

theorem create_files_spec {fs : List φ} (h : Tidy m) (hnodup : fs.Nodup)
    (hfree : ∀ f ∈ fs, m.proc_file f = false) :
    Tidy (create_files o fs m).1 ∧
    ((create_files o fs m).2 = 0 ↔ ∀ f ∈ fs, o.proc_create f = true) ∧
    (∀ f, f ∉ fs → (create_files o fs m).1.proc_file f = m.proc_file f) ∧
    ((create_files o fs m).2 = 0 → ∀ f ∈ fs, (create_files o fs m).1.proc_file f = true) := by
  induction fs generalizing m with
  | nil =>
      exact ⟨h, ⟨fun _ f hf => absurd hf List.not_mem_nil, fun _ => rfl⟩, fun _ _ => rfl,
        fun _ f hf => absurd hf List.not_mem_nil⟩
  | cons f fs ih =>
      obtain ⟨hf, hnodup⟩ := List.nodup_cons.mp hnodup
      have hnull : m.proc_file f = false := hfree f List.mem_cons_self
      unfold create_files
      by_cases hok : o.proc_create f = true
      · rw [if_pos hok]
        have hmade : Tidy { m.acquire (.file f) with
            proc_file := Function.update m.proc_file f true } := by
          refine h.acquire (r := .file f) hnull rfl fun q => ?_
          unfold Module.acquire
          rw [owns_file m]
          split
          · next hq => rw [decide_eq_true hq, Bool.true_or]
          · next hq => rw [decide_eq_false hq, Bool.false_or]
        have hrest : ∀ g ∈ fs, Function.update m.proc_file f true g = false := by
          intro g hg
          rw [Function.update_of_ne (fun heq : g = f => hf (heq ▸ hg))]
          exact hfree g (List.mem_cons_of_mem f hg)
        obtain ⟨htidy, hres, hframe, hset⟩ := ih hmade hnodup hrest
        refine ⟨htidy, hres.trans ⟨fun hall => ?_, fun hall => ?_⟩, fun g hg => ?_, fun hzero => ?_⟩
        · exact List.forall_mem_cons.mpr ⟨hok, hall⟩
        · exact (List.forall_mem_cons.mp hall).2
        · rw [List.mem_cons, not_or] at hg
          exact (hframe g hg.2).trans (Function.update_of_ne hg.1 _ _)
        · exact List.forall_mem_cons.mpr
            ⟨(hframe f hf).trans (Function.update_self ..), hset hzero⟩
      · rw [if_neg hok, ← hnull, Function.update_eq_self]
        have hfail : -EFAULT ≠ 0 := by decide
        exact ⟨h, ⟨fun hzero => absurd hzero hfail,
          fun hall => absurd (hall f List.mem_cons_self) hok⟩, fun _ _ => rfl,
          fun hzero => absurd hzero hfail⟩

theorem create_proc_example_spec (h : Tidy m) (hnodup : files.Nodup) (hdir : m.proc_dir = false)
    (hfree : ∀ f, m.proc_file f = false) :
    Tidy (create_proc_example files o m).1 ∧
    ((create_proc_example files o m).2 = 0 ↔
      o.proc_mkdir = true ∧ ∀ f ∈ files, o.proc_create f = true) ∧
    (∀ f, f ∉ files → (create_proc_example files o m).1.proc_file f = false) ∧
    ((create_proc_example files o m).2 = 0 →
      ∀ f ∈ files, (create_proc_example files o m).1.proc_file f = true) := by
  unfold create_proc_example
  by_cases hok : o.proc_mkdir = true
  · have hmade : Tidy { m.acquire .dir with proc_dir := true } := by
      refine h.acquire (r := .dir) hdir rfl fun q => ?_
      cases q with
      | dir => rfl
      | buffer n | file f | devclass | classfile => exact (Bool.false_or _).symm
    obtain ⟨htidy, hres, hframe, hset⟩ := create_files_spec (o := o) hmade hnodup fun f _ => hfree f
    rw [if_pos hok]
    refine ⟨htidy, ?_, fun f hf => (hframe f hf).trans (hfree f), hset⟩
    rw [hres, and_iff_right hok]
  · rw [if_neg hok]
    have hfail : -EFAULT ≠ 0 := by decide
    refine ⟨?_, ⟨fun hzero => absurd hzero hfail, fun hall => absurd hall.1 hok⟩,
      fun f _ => hfree f, fun hzero => absurd hzero hfail⟩
    rw [← hdir]
    exact h

theorem cleanup_files_spec (fs : List φ) (h : Tidy m) :
    Tidy (fs.foldl cleanup_file m) ∧
    ∀ f, (fs.foldl cleanup_file m).proc_file f = (!decide (f ∈ fs) && m.proc_file f) := by
  induction fs generalizing m with
  | nil => exact ⟨h, fun f => by simp⟩
  | cons f fs ih =>
      have hone : Tidy (cleanup_file m f) ∧
          ∀ g, (cleanup_file m f).proc_file g = (!decide (g = f) && m.proc_file g) := by
        unfold cleanup_file
        by_cases hset : m.proc_file f = true
        · rw [if_pos hset]
          refine ⟨h.release (r := .file f) hset rfl fun q => ?_, fun g => ?_⟩
          · unfold Module.release
            rw [owns_file m]
            split
            · next hq => rw [decide_eq_true hq, Bool.not_true, Bool.false_and]
            · next hq => rw [decide_eq_false hq, Bool.not_false, Bool.true_and]
          · dsimp only
            rw [Function.update_apply]
            split
            · next hg => rw [decide_eq_true hg, Bool.not_true, Bool.false_and]
            · next hg => rw [decide_eq_false hg, Bool.not_false, Bool.true_and]
        · rw [if_neg hset]
          refine ⟨h, fun g => ?_⟩
          by_cases hg : g = f
          · rw [hg, eq_false_of_ne_true hset, Bool.and_false]
          · rw [decide_eq_false hg, Bool.not_false, Bool.true_and]
      obtain ⟨htidy, hfiles⟩ := ih hone.1
      refine ⟨htidy, fun g => ?_⟩
      rw [List.foldl_cons, hfiles g, hone.2 g, ← Bool.and_assoc]
      congr 1
      simp [Bool.and_comm]

/-! ## Loading and unloading -/

theorem create_files_frame (o : Answers φ) (fs : List φ) (m : Module φ) :
    ∃ p l, (create_files o fs m).1 = { m with proc_file := p, log := l } := by
  induction fs generalizing m with
  | nil => exact ⟨_, _, rfl⟩
  | cons f fs ih =>
      unfold create_files
      split
      · obtain ⟨p, l, h⟩ :=
          ih { m.acquire (.file f) with proc_file := Function.update m.proc_file f true }
        exact ⟨p, l, h⟩
      · exact ⟨_, _, rfl⟩

theorem cleanup_files_frame (fs : List φ) (m : Module φ) :
    ∃ p l, fs.foldl cleanup_file m = { m with proc_file := p, log := l } := by
  induction fs generalizing m with
  | nil => exact ⟨_, _, rfl⟩
  | cons f fs ih =>
      obtain ⟨p, l, h⟩ := ih (cleanup_file m f)
      rw [List.foldl_cons, h]
      unfold cleanup_file
      split
      · exact ⟨_, _, rfl⟩
      · exact ⟨_, _, rfl⟩

/-- Unloading clears whatever is set, as long as it is the module's own. -/
theorem unload_spec (h : Tidy m) (hown : ∀ f, f ∉ files → m.proc_file f = false) :
    Tidy (unload files m) ∧ Clear (unload files m) ∧ SameClass m (unload files m) := by
  obtain ⟨htidy, hfiles⟩ := cleanup_files_spec files h
  obtain ⟨p, l, hframe⟩ := cleanup_files_frame files m
  have hnone : ∀ f, (files.foldl cleanup_file m).proc_file f = false := by
    intro f
    rw [hfiles f]
    by_cases hf : f ∈ files
    · rw [decide_eq_true hf, Bool.not_true, Bool.false_and]
    · rw [hown f hf, Bool.and_false]
  have hproc : Tidy (cleanup_proc_example files m) ∧
      (cleanup_proc_example files m).proc_dir = false ∧
      (∀ f, (cleanup_proc_example files m).proc_file f = false) ∧
      SameClass m (cleanup_proc_example files m) := by
    unfold cleanup_proc_example
    by_cases hdir : (files.foldl cleanup_file m).proc_dir = true
    · dsimp only
      rw [if_pos hdir]
      refine ⟨htidy.release (r := .dir) hdir rfl fun q => ?_, rfl, hnone, ?_⟩
      · cases q with
        | dir => rfl
        | buffer n | file f | devclass | classfile => exact (Bool.true_and _).symm
      · rw [hframe]
        exact ⟨rfl, rfl⟩
    · dsimp only
      rw [if_neg hdir]
      refine ⟨htidy, eq_false_of_ne_true hdir, hnone, ?_⟩
      rw [hframe]
      exact ⟨rfl, rfl⟩
  obtain ⟨htidy', hdir, hfile, hclass⟩ := hproc
  obtain ⟨hend, hbuffer⟩ := cleanup_buffer_spec htidy'
  unfold unload
  refine ⟨hend, ⟨hbuffer, ?_⟩, ?_⟩
  · unfold cleanup_buffer
    split
    · exact ⟨hdir, hfile⟩
    · exact ⟨hdir, hfile⟩
  · unfold cleanup_buffer
    split
    · exact hclass
    · exact hclass

omit [DecidableEq φ] in
theorem create_buffer_frame (m : Module φ) (ok : Bool) :
    ∃ b k l, (create_buffer m ok).1 = { m with proc_buffer := b, kmallocs := k, log := l } := by
  unfold create_buffer
  split
  · exact ⟨_, _, _, rfl⟩
  · exact ⟨_, _, _, rfl⟩

theorem create_proc_example_frame (files : List φ) (o : Answers φ) (m : Module φ) :
    ∃ d p l, (create_proc_example files o m).1 =
      { m with proc_dir := d, proc_file := p, log := l } ∧
      ((create_proc_example files o m).2 = 0 → d = true) := by
  unfold create_proc_example
  split
  · obtain ⟨p, l, h⟩ := create_files_frame o files { m.acquire .dir with proc_dir := true }
    exact ⟨true, p, l, h, fun _ => rfl⟩
  · have hfail : -EFAULT ≠ 0 := by decide
    exact ⟨_, _, _, rfl, fun hzero => absurd hzero hfail⟩

theorem load_eq (files : List φ) (o : Answers φ) (m : Module φ) :
    load files o m =
      if (create_buffer m o.kmalloc).2 ≠ 0 then
        (unload files (create_buffer m o.kmalloc).1, (create_buffer m o.kmalloc).2)
      else if (create_proc_example files o (create_buffer m o.kmalloc).1).2 ≠ 0 then
        (unload files (create_proc_example files o (create_buffer m o.kmalloc).1).1,
          (create_proc_example files o (create_buffer m o.kmalloc).1).2)
      else ((create_proc_example files o (create_buffer m o.kmalloc).1).1, 0) := rfl

/-- A load sets every pointer if every call succeeds, and none otherwise. -/
theorem load_spec (h : Tidy m) (hclear : Clear m) (hnodup : files.Nodup) :
    Tidy (load files o m).1 ∧ SameClass m (load files o m).1 ∧
    ((load files o m).2 = 0 ↔ o.Good files) ∧
    ((load files o m).2 = 0 → Full files (load files o m).1) ∧
    ((load files o m).2 ≠ 0 → Clear (load files o m).1) := by
  obtain ⟨hnone, hdir, hfile⟩ := hclear
  obtain ⟨htidy, hres, hset⟩ := create_buffer_spec h hnone o.kmalloc
  obtain ⟨b, k, l, hframe⟩ := create_buffer_frame m o.kmalloc
  rw [load_eq]
  generalize create_buffer m o.kmalloc = r at htidy hres hset hframe ⊢
  obtain ⟨m₁, err₁⟩ := r
  dsimp only at htidy hres hset hframe ⊢
  have hclass : SameClass m m₁ := by
    rw [hframe]
    exact ⟨rfl, rfl⟩
  have hfile₁ : ∀ f, m₁.proc_file f = false := by
    rw [hframe]
    exact hfile
  by_cases hok : o.kmalloc = true
  · rw [if_pos hok] at hres
    rw [if_neg (not_not.mpr hres)]
    obtain ⟨htidy₂, hres₂, hframe₂, hset₂⟩ := create_proc_example_spec (o := o) htidy hnodup
      (by rw [hframe]; exact hdir) hfile₁
    obtain ⟨d, p, l₂, heq, hd⟩ := create_proc_example_frame files o m₁
    generalize create_proc_example files o m₁ = r at htidy₂ hres₂ hframe₂ hset₂ heq hd ⊢
    obtain ⟨m₂, err₂⟩ := r
    dsimp only at htidy₂ hres₂ hframe₂ hset₂ heq hd ⊢
    have hclass₂ : SameClass m m₂ := by
      rw [heq]
      exact hclass
    by_cases herr : err₂ = 0
    · rw [if_neg (not_not.mpr herr)]
      refine ⟨htidy₂, hclass₂, ⟨fun _ => ⟨hok, hres₂.mp herr⟩, fun _ => rfl⟩, fun _ => ?_,
        fun hno => absurd rfl hno⟩
      refine ⟨?_, ?_, fun f => ?_⟩
      · rw [heq]
        exact hset hok
      · rw [heq]
        exact hd herr
      · by_cases hf : f ∈ files
        · rw [decide_eq_true hf, hset₂ herr f hf]
        · rw [decide_eq_false hf, hframe₂ f hf]
    · rw [if_pos herr]
      obtain ⟨hend, hclear, hsame⟩ := unload_spec htidy₂ hframe₂
      refine ⟨hend, ⟨hsame.1.trans hclass₂.1, hsame.2.trans hclass₂.2⟩,
        ⟨fun hzero => absurd hzero herr, fun hall => absurd (hres₂.mpr hall.2) herr⟩,
        fun hzero => absurd hzero herr, fun _ => hclear⟩
  · rw [if_neg hok] at hres
    have herr : err₁ ≠ 0 := by
      rw [hres]
      decide
    rw [if_pos herr]
    obtain ⟨hend, hclear, hsame⟩ := unload_spec htidy fun f _ => hfile₁ f
    exact ⟨hend, ⟨hsame.1.trans hclass.1, hsame.2.trans hclass.2⟩,
      ⟨fun hzero => absurd hzero herr, fun hall => absurd hall.1 hok⟩,
      fun hzero => absurd hzero herr, fun _ => hclear⟩

theorem tidy_init : Tidy (Module.init : Module φ) := by
  unfold Tidy holds
  rw [show (Module.init : Module φ).log = [] from rfl, run_nil]
  congr 1
  funext q
  cases q with
  | buffer n | dir | file f | devclass | classfile => rfl

omit [DecidableEq φ] in
theorem image_of_clear (h : Clear m) : m.image = m := by
  obtain ⟨hbuffer, hdir, hfile⟩ := h
  have hfiles : m.proc_file = fun _ => false := funext hfile
  unfold Module.image
  rw [← hfiles, ← hbuffer, ← hdir]

theorem balanced_of_clear (h : Tidy m) (hclear : Clear m) (hclass : m.devclass = false)
    (hattr : m.classfile = false) : Lib.Balanced m.log := by
  unfold Lib.Balanced
  rw [show holds m.log = some m.owns from h]
  congr 1
  funext q
  cases q with
  | buffer n => exact decide_eq_false (by rw [hclear.1]; exact nofun)
  | dir => exact hclear.2.1
  | file f => exact hclear.2.2 f
  | devclass => exact hclass
  | classfile => exact hattr

/-- What a loaded module holds. -/
theorem holding_of_full (h : Tidy m) (hfull : Full files m) : ∃ n, Holding m.log
    (.buffer n :: .dir :: files.map .file ++
      ((if m.devclass then [.devclass] else []) ++ if m.classfile then [.classfile] else [])) := by
  obtain ⟨hbuffer, hdir, hfile⟩ := hfull
  obtain ⟨n, hn⟩ := Option.ne_none_iff_exists'.mp hbuffer
  refine ⟨n, ?_⟩
  unfold Holding
  rw [show holds m.log = some m.owns from h]
  congr 1
  funext q
  cases q with
  | buffer k =>
      have hiff : m.proc_buffer = some k ↔ k = n := by
        rw [hn, Option.some_inj, eq_comm]
      simp [Module.owns, hiff]
  | dir => simp [Module.owns, hdir]
  | file f =>
      refine (hfile f).trans (decide_eq_decide.mpr ?_)
      split <;> split <;> simp
  | devclass => simp [Module.owns]
  | classfile => simp [Module.owns]

end

/-! ## The modules of exercise10 -/

structure InOrder (s : Life ProcFile) : Prop where
  tidy : Tidy s.state
  full : s.loaded = true → Full [.buffer] s.state
  clear : s.loaded = false → Clear s.state
  devclass : s.state.devclass = false
  classfile : s.state.classfile = false

theorem step_inOrder {s s' : Life ProcFile} {a : Act (Answers ProcFile)} (h : InOrder s)
    (hs : step s a = some s') : InOrder s' := by
  cases a with
  | insmod o =>
      obtain ⟨hout, hs⟩ := Option.ite_none_left_eq_some.mp hs
      have hclear := h.clear (eq_false_of_ne_true hout)
      rw [image_of_clear hclear] at hs
      obtain ⟨htidy, hclass, -, hfull, hfailed⟩ :=
        load_spec (o := o) h.tidy hclear (show [ProcFile.buffer].Nodup by decide)
      cases hs
      refine ⟨htidy, fun hin => hfull (of_decide_eq_true hin),
        fun hno => hfailed (of_decide_eq_false hno), ?_, ?_⟩
      · exact hclass.1.trans h.devclass
      · exact hclass.2.trans h.classfile
  | rmmod =>
      obtain ⟨hin, hs⟩ := Option.ite_none_right_eq_some.mp hs
      have hfull := h.full hin
      have hown : ∀ f, f ∉ [ProcFile.buffer] → s.state.proc_file f = false := by
        intro f hf
        rw [hfull.2.2 f, decide_eq_false hf]
      obtain ⟨htidy, hclear, hclass⟩ := unload_spec h.tidy hown
      cases hs
      exact ⟨htidy, fun hno => absurd hno Bool.false_ne_true, fun _ => hclear,
        hclass.1.trans h.devclass, hclass.2.trans h.classfile⟩

/-- Over any number of loads and unloads, whichever calls fail: a load succeeds just when none
    of its calls fails, a module that is loaded holds its buffer, its directory and its file,
    and nothing is left when it is not. -/
theorem example_life {acts : List (Act (Answers ProcFile))} {s : Life ProcFile}
    (hrun : run step Life.init acts = some s) :
    (∀ o s', step s (.insmod o) = some s' → (s'.loaded = true ↔ o.Good [.buffer])) ∧
    (s.loaded = true → ∃ n, Holding s.state.log [.buffer n, .dir, .file .buffer]) ∧
    (s.loaded = false → Lib.Balanced s.state.log) := by
  have hinit : InOrder (Life.init : Life ProcFile) :=
    ⟨tidy_init, fun hno => absurd hno Bool.false_ne_true, fun _ => ⟨rfl, rfl, fun _ => rfl⟩,
      rfl, rfl⟩
  have h := run_invariant InOrder hinit (fun _ _ _ => step_inOrder) hrun
  refine ⟨fun o s' hs => ?_, fun hin => ?_, fun hout => ?_⟩
  · obtain ⟨hout, hs⟩ := Option.ite_none_left_eq_some.mp hs
    have hclear := h.clear (eq_false_of_ne_true hout)
    rw [image_of_clear hclear] at hs
    obtain ⟨-, -, hres, -⟩ :=
      load_spec (o := o) h.tidy hclear (show [ProcFile.buffer].Nodup by decide)
    cases hs
    exact decide_eq_true_iff.trans hres
  · obtain ⟨n, hn⟩ := holding_of_full h.tidy (h.full hin)
    rw [h.devclass, h.classfile] at hn
    exact ⟨n, hn⟩
  · exact balanced_of_clear h.tidy (h.clear hout) h.devclass h.classfile

/-- `proc_create` fails, then nothing; the module is unloaded, and its next `kmalloc` fails. -/
theorem example_life_reloaded : ∃ s : Life ProcFile,
    run step Life.init [.insmod ⟨true, true, fun _ => false⟩, .insmod ⟨true, true, fun _ => true⟩,
      .rmmod, .insmod ⟨false, true, fun _ => true⟩] = some s ∧ Lib.Balanced s.state.log := by
  obtain ⟨s, hs, hout⟩ : ∃ s ∈ run step Life.init
      [.insmod ⟨true, true, fun _ => false⟩, .insmod ⟨true, true, fun _ => true⟩, .rmmod,
        .insmod ⟨false, true, fun _ => true⟩], s.loaded = false := by decide
  exact ⟨s, hs, (example_life hs).2.2 hout⟩

end KernelBasecamp.Procfs.Loading
