/-
  What the chat module of task06 acquires and releases, from `dev_init` to `dev_exit`.

  A `Life` is the module's data with its pointers to what it holds and the log of all
  acquisitions and releases so far. The error exits of `dev_init` free the buffer (and give
  back the region when `cdev_add` fails); none of them calls `cleanup_proc`.

  * `life_balanced_iff`: over every life of the module, the log is balanced exactly when the load
    succeeds or `proc_mkdir` is what failed. When a later call fails, the entries made under
    /proc/chat stay behind (`left_behind`).
-/
import KernelBasecamp.Lib.Resources
import KernelBasecamp.Chat.Users

namespace KernelBasecamp.Chat.Lifecycle

open Lib

inductive ProcFile where
  | add
  | reset
  | stat
  deriving DecidableEq, Repr

inductive Resource where
  /-- what the `n`-th successful `kmalloc` returned -/
  | buffer (n : Nat)
  | dir
  | file (f : ProcFile)
  | region (major : Nat)
  | cdev
  | devclass
  | device (major minor : Nat)
  deriving DecidableEq, Repr

/-- The pointers to proc entries are kept as whether they are set. -/
structure Life where
  dev : State
  major : Nat
  proc_dir : Bool
  proc_file_add : Bool
  proc_file_reset : Bool
  proc_file_stat : Bool
  /-- which `kmalloc` returned `chat_buffer`; `none` is the null pointer -/
  chat_buffer : Option Nat
  kmallocs : Nat
  log : List (Event Resource)
  deriving DecidableEq, Repr

/-- Which of the calls made by `dev_init` succeed, and the major number that
    `alloc_chrdev_region` hands out. -/
structure Answers where
  kmalloc : Bool
  proc_mkdir : Bool
  proc_create_add : Bool
  proc_create_reset : Bool
  proc_create_stat : Bool
  region : Bool
  cdev_add : Bool
  dynamic : Nat
  deriving DecidableEq, Repr

namespace Life

/-- The module before `dev_init`, with its parameter `major`. -/
def blank (major : Nat) : Life :=
  ⟨State.blank, major, false, false, false, false, none, 0, []⟩

def acquire (l : Life) (rs : List Resource) : Life := { l with log := l.log ++ rs.map .acquire }

def release (l : Life) (rs : List Resource) : Life := { l with log := l.log ++ rs.map .release }

end Life

/-- The buffer behind a pointer, none for null. -/
def buffers (p : Option Nat) : List Resource := p.toList.map .buffer

/-- `kmalloc(size, __GFP_ZERO)`. -/
def kmalloc (l : Life) (size : Nat) (ok : Bool) : Life × Option Nat :=
  if (Chat.kmalloc size ok).isSome then
    ({ l.acquire [.buffer l.kmallocs] with kmallocs := l.kmallocs + 1 }, some l.kmallocs)
  else (l, none)

def kfree (l : Life) (p : Option Nat) : Life := l.release (buffers p)

/-! ## Loading -/

/-- The second component is whether the result is 0. -/
def create_proc_files (l : Life) (o : Answers) : Life × Bool :=
  if o.proc_mkdir then
    let l := { l.acquire [.dir] with proc_dir := true }
    if o.proc_create_add then
      let l := { l.acquire [.file .add] with proc_file_add := true }
      if o.proc_create_reset then
        let l := { l.acquire [.file .reset] with proc_file_reset := true }
        if o.proc_create_stat then
          ({ l.acquire [.file .stat] with proc_file_stat := true }, true)
        else (l, false)
      else (l, false)
    else (l, false)
  else (l, false)

def cleanup_proc (l : Life) : Life :=
  let l := if l.proc_file_add then { l.release [.file .add] with proc_file_add := false } else l
  let l :=
    if l.proc_file_reset then { l.release [.file .reset] with proc_file_reset := false } else l
  let l := if l.proc_file_stat then { l.release [.file .stat] with proc_file_stat := false } else l
  if l.proc_dir then { l.release [.dir] with proc_dir := false } else l

/-- `dev_init` from the device region on. -/
def register (l : Life) (o : Answers) : Option (Life × Bool) :=
  -- `register_chrdev_region` or `alloc_chrdev_region`
  let l := { l with major := if l.major ≠ 0 then l.major else o.dynamic }
  if o.region then
    let l := l.acquire [.region l.major]
    if o.cdev_add then
      let l := l.acquire [.cdev, .devclass, .device l.major 0]
      (Chat.dev_init l.dev o.kmalloc).map fun dev => ({ l with dev }, true)
    else some (kfree (l.release [.region l.major]) l.chat_buffer, false)
  else some (kfree l l.chat_buffer, false)

/-- The second component is whether the result is not negative. -/
def dev_init (l : Life) (o : Answers) : Option (Life × Bool) :=
  let (l, p) := kmalloc l l.dev.chat_buffer_size o.kmalloc
  let l := { l with chat_buffer := p }
  let (l, ok) := create_proc_files l o
  if ok then register l o
  else some (kfree l l.chat_buffer, false)

/-! ## The loaded module -/

def proc_write_add (l : Life) (buffer : List UInt8) (length left : Nat) : Option Life :=
  let (m, user_name) := kmalloc l length true
  let m := m.acquire [.device m.major m.dev.user_count]
  (Chat.proc_write_add m.dev buffer length left).map fun r =>
    kfree { m with dev := r.1 } user_name

def proc_write_reset (l : Life) (length : Nat) (parsed : Option UInt64) (ok : Bool) : Life :=
  let dev := (Chat.proc_write_reset l.dev length parsed ok).1
  match parsed with
  | none => { l with dev }
  | some n =>
      if n ≠ 0 then
        let (l, p) := kmalloc (kfree l l.chat_buffer) (n * 1024).toNat ok
        { l with dev, chat_buffer := p }
      else { l with dev }

/-- The other calls acquire and release nothing. -/
def step (l : Life) : Act → Option Life
  | .add buffer length left => proc_write_add l buffer length left
  | .reset length parsed ok => some (proc_write_reset l length parsed ok)
  | a => (Chat.step l.dev a).map fun dev => { l with dev }

def dev_exit (l : Life) : Life :=
  let l := cleanup_proc (kfree l l.chat_buffer)
  let l := l.release ((List.range l.dev.user_count).map fun i => .device l.major i)
  l.release [.devclass, .cdev, .region l.major]

/-- The log of a whole life: the load, then the calls and `dev_exit` if it succeeds. -/
def life (major : Nat) (o : Answers) (acts : List Act) : Option (List (Event Resource)) := do
  let (l, ok) ← dev_init (Life.blank major) o
  if ok then
    let l ← run step l acts
    some (dev_exit l).log
  else some l.log

/-! ## What a loaded module owns -/

/-- In the order in which `dev_exit` releases them. -/
def owned (l : Life) : List Resource :=
  buffers l.chat_buffer ++ [.file .add, .file .reset, .file .stat, .dir] ++
    (List.range l.dev.user_count).map (fun i => .device l.major i) ++
    [.devclass, .cdev, .region l.major]

structure Loaded (l : Life) : Prop where
  proc_dir : l.proc_dir = true
  proc_file_add : l.proc_file_add = true
  proc_file_reset : l.proc_file_reset = true
  proc_file_stat : l.proc_file_stat = true
  /-- the next buffer is a new one -/
  fresh : ∀ n ∈ l.chat_buffer, n < l.kmallocs
  holding : Holding l.log (owned l)

theorem mem_buffers {r : Resource} {p : Option Nat} : r ∈ buffers p ↔ ∃ n ∈ p, r = .buffer n := by
  unfold buffers
  rw [List.mem_map]
  constructor
  · rintro ⟨n, hn, rfl⟩
    exact ⟨n, Option.mem_toList.mp hn, rfl⟩
  · rintro ⟨n, hn, rfl⟩
    exact ⟨n, Option.mem_toList.mpr hn, rfl⟩

theorem nodup_buffers (p : Option Nat) : (buffers p).Nodup := by
  cases p with
  | none => exact List.nodup_nil
  | some n => exact List.nodup_singleton _

theorem mem_owned {l : Life} {r : Resource} : r ∈ owned l ↔
    r ∈ buffers l.chat_buffer ∨ r ∈ [.file .add, .file .reset, .file .stat, .dir] ∨
      (∃ i < l.dev.user_count, r = .device l.major i) ∨
      r ∈ [.devclass, .cdev, .region l.major] := by
  unfold owned
  rw [List.mem_append, List.mem_append, List.mem_append, List.mem_map, or_assoc, or_assoc]
  have hdev : (∃ i, i ∈ List.range l.dev.user_count ∧ Resource.device l.major i = r) ↔
      ∃ i < l.dev.user_count, r = .device l.major i := by
    constructor
    · rintro ⟨i, hi, rfl⟩
      exact ⟨i, List.mem_range.mp hi, rfl⟩
    · rintro ⟨i, hi, rfl⟩
      exact ⟨i, List.mem_range.mpr hi, rfl⟩
  rw [hdev]

theorem nodup_owned (l : Life) : (owned l).Nodup := by
  have hdev : ((List.range l.dev.user_count).map fun i => Resource.device l.major i).Nodup :=
    List.nodup_range.map fun i j hij => (Resource.device.inj hij).2
  have hbuf := nodup_buffers l.chat_buffer
  unfold owned
  rw [List.nodup_append, List.nodup_append, List.nodup_append]
  refine ⟨⟨⟨hbuf, by decide, ?_⟩, hdev, ?_⟩, by simp, ?_⟩
  · intro a ha b hb hab
    obtain ⟨n, _, rfl⟩ := mem_buffers.mp ha
    subst hab
    simp at hb
  · intro a ha b hb hab
    obtain ⟨i, _, rfl⟩ := List.mem_map.mp hb
    subst hab
    simp [mem_buffers] at ha
  · intro a ha b hb hab
    subst hab
    simp [mem_buffers] at ha hb
    rcases hb with rfl | rfl | rfl <;> simp at ha

/-! ## Loading -/

/-- The entries under /proc that `create_proc_files` makes before it returns. -/
def procEntries (o : Answers) : List Resource :=
  if o.proc_mkdir then
    .dir ::
      if o.proc_create_add then
        .file .add ::
          if o.proc_create_reset then
            .file .reset :: if o.proc_create_stat then [.file .stat] else []
          else []
      else []
  else []

def Answers.filesMade (o : Answers) : Bool :=
  o.proc_mkdir && o.proc_create_add && o.proc_create_reset && o.proc_create_stat

/-- The load succeeds. A failing `kmalloc` does not stop it. -/
def Answers.Loads (o : Answers) : Prop :=
  o.filesMade = true ∧ o.region = true ∧ o.cdev_add = true

instance (o : Answers) : Decidable o.Loads := inferInstanceAs (Decidable (_ ∧ _ ∧ _))

theorem procEntries_sublist (o : Answers) :
    (procEntries o).Sublist [.dir, .file .add, .file .reset, .file .stat] := by
  unfold procEntries
  split
  · refine List.Sublist.cons_cons _ ?_
    split
    · refine List.Sublist.cons_cons _ ?_
      split
      · refine List.Sublist.cons_cons _ ?_
        split
        · exact List.Sublist.refl _
        · exact List.nil_sublist _
      · exact List.nil_sublist _
    · exact List.nil_sublist _
  · exact List.nil_sublist _

theorem procEntries_eq_nil {o : Answers} : procEntries o = [] ↔ o.proc_mkdir = false := by
  unfold procEntries
  split
  · next h => simp [h]
  · next h => simp [h]

theorem procEntries_of_made {o : Answers} (h : o.filesMade = true) :
    procEntries o = [.dir, .file .add, .file .reset, .file .stat] := by
  unfold Answers.filesMade at h
  simp only [Bool.and_eq_true] at h
  obtain ⟨⟨⟨hdir, hadd⟩, hreset⟩, hstat⟩ := h
  unfold procEntries
  rw [if_pos hdir, if_pos hadd, if_pos hreset, if_pos hstat]

theorem create_proc_files_eq (l : Life) (o : Answers) : ∃ d a r s : Bool,
    create_proc_files l o = ({ l.acquire (procEntries o) with
      proc_dir := d, proc_file_add := a, proc_file_reset := r, proc_file_stat := s },
      o.filesMade) ∧
    (o.filesMade = true → d = true ∧ a = true ∧ r = true ∧ s = true) := by
  unfold create_proc_files procEntries Answers.filesMade Life.acquire
  cases hdir : o.proc_mkdir
  · exact ⟨l.proc_dir, l.proc_file_add, l.proc_file_reset, l.proc_file_stat, by simp, by simp⟩
  cases hadd : o.proc_create_add
  · exact ⟨true, l.proc_file_add, l.proc_file_reset, l.proc_file_stat, by simp, by simp⟩
  cases hreset : o.proc_create_reset
  · exact ⟨true, true, l.proc_file_reset, l.proc_file_stat, by simp, by simp⟩
  cases hstat : o.proc_create_stat
  · exact ⟨true, true, true, l.proc_file_stat, by simp, by simp⟩
  · exact ⟨true, true, true, true, by simp, by simp⟩

/-- `kmalloc` returns null or a new buffer. -/
theorem kmalloc_eq (l : Life) (size : Nat) (ok : Bool) : ∃ p k,
    kmalloc l size ok = ({ l.acquire (buffers p) with kmallocs := k }, p) ∧
    l.kmallocs ≤ k ∧ ∀ n ∈ p, l.kmallocs = n ∧ n < k := by
  unfold kmalloc
  split
  · refine ⟨some l.kmallocs, l.kmallocs + 1, rfl, Nat.le_succ _, fun n hn => ?_⟩
    cases hn
    exact ⟨rfl, Nat.lt_succ_self _⟩
  · refine ⟨none, l.kmallocs, ?_, Nat.le_refl _, (fun n hn => nomatch hn)⟩
    unfold Life.acquire buffers
    simp

theorem not_buffer_of_procEntries {o : Answers} {r : Resource} (hr : r ∈ procEntries o)
    (p : Option Nat) : r ∉ buffers p := by
  intro hb
  obtain ⟨n, _, rfl⟩ := mem_buffers.mp hb
  have hmem := (procEntries_sublist o).subset hr
  simp at hmem

/-- After the proc entries: what the blank module holds, and where its pointers stand. -/
theorem holding_entries {p : Option Nat} {o : Answers} :
    Holding ([] ++ (buffers p).map .acquire ++ (procEntries o).map .acquire)
      (buffers p ++ procEntries o) := by
  have hnodup : (procEntries o).Nodup := (procEntries_sublist o).nodup (by decide)
  have hbuf : Holding ([] ++ (buffers p).map .acquire) ([] ++ buffers p) :=
    Holding.nil.acquire (nodup_buffers p) fun r _ => List.not_mem_nil
  exact hbuf.acquire hnodup fun r hr => not_buffer_of_procEntries hr p

/-- The error exit of `dev_init` frees the buffer and nothing else. -/
theorem holding_err {log : List (Event Resource)} {p : Option Nat} {rs : List Resource}
    (h : Holding log (buffers p ++ rs)) (hrs : ∀ r ∈ rs, r ∉ buffers p) :
    Holding (log ++ (buffers p).map .release) rs := by
  refine (h.release (nodup_buffers p) fun r hr => List.mem_append_left rs hr).congr fun r => ?_
  rw [List.mem_filter, List.mem_append, decide_eq_true_iff]
  constructor
  · rintro ⟨hr | hr, hnot⟩
    · exact absurd hr hnot
    · exact hr
  · intro hr
    exact ⟨Or.inr hr, hrs r hr⟩

theorem dev_init_user_count {s s' : State} {ok : Bool} (h : Chat.dev_init s ok = some s') :
    s'.user_count = s.user_count + 1 := by
  unfold Chat.dev_init at h
  obtain ⟨users, _, h⟩ := Option.bind_eq_some_iff.mp h
  cases h
  rfl

/-- The blank module once `create_proc_files` has returned. -/
structure Entered (l : Life) (o : Answers) : Prop where
  made : o.filesMade = true →
    l.proc_dir = true ∧ l.proc_file_add = true ∧ l.proc_file_reset = true ∧
      l.proc_file_stat = true
  fresh : ∀ n ∈ l.chat_buffer, n < l.kmallocs
  count : l.dev.user_count = 0
  holding : Holding l.log (buffers l.chat_buffer ++ procEntries o)

theorem dev_init_entered (major : Nat) (o : Answers) : ∃ l, Entered l o ∧
    dev_init (Life.blank major) o =
      if o.filesMade then register l o else some (kfree l l.chat_buffer, false) := by
  obtain ⟨p, k, hkmalloc, _, hfresh⟩ := kmalloc_eq (Life.blank major)
    (Life.blank major).dev.chat_buffer_size o.kmalloc
  let l : Life :=
    { (Life.blank major).acquire (buffers p) with chat_buffer := p, kmallocs := k }
  obtain ⟨d, a, r, s, hfiles, hmade⟩ := create_proc_files_eq l o
  refine ⟨{ l.acquire (procEntries o) with
    proc_dir := d, proc_file_add := a, proc_file_reset := r, proc_file_stat := s },
    ⟨hmade, fun n hn => (hfresh n hn).2, rfl, holding_entries⟩, ?_⟩
  unfold dev_init
  rw [hkmalloc]
  change (match create_proc_files l o with
    | (l, ok) => if ok then register l o else some (kfree l l.chat_buffer, false)) = _
  rw [hfiles]

/-- The two error exits of `register`. -/
theorem Entered.err {l : Life} {o : Answers} (h : Entered l o) :
    Holding (kfree l l.chat_buffer).log (procEntries o) :=
  holding_err h.holding fun _ hr => not_buffer_of_procEntries hr l.chat_buffer

theorem region_free {p : Option Nat} {o : Answers} {major : Nat} :
    Resource.region major ∉ buffers p ++ procEntries o := by
  rw [List.mem_append, mem_buffers]
  rintro (⟨n, _, hn⟩ | hr)
  · cases hn
  · have hmem := (procEntries_sublist o).subset hr
    simp at hmem

theorem Entered.err_cdev {l : Life} {o : Answers} (h : Entered l o) (major : Nat) :
    Holding (kfree ((l.acquire [.region major]).release [.region major]) l.chat_buffer).log
      (procEntries o) := by
  have hreg := h.holding.acquire (List.nodup_singleton (Resource.region major)) fun r hr => by
    rw [List.mem_singleton.mp hr]
    exact region_free
  have hunreg := hreg.release (List.nodup_singleton (Resource.region major)) fun r hr =>
    List.mem_append_right _ hr
  have hback : Holding _ (buffers l.chat_buffer ++ procEntries o) := hunreg.congr fun r => by
    rw [List.mem_filter, List.mem_append, decide_eq_true_iff]
    constructor
    · rintro ⟨hr | hr, hnot⟩
      · exact hr
      · exact absurd hr hnot
    · intro hr
      refine ⟨Or.inl hr, fun hreg => ?_⟩
      rw [List.mem_singleton.mp hreg] at hr
      exact region_free hr
  exact holding_err hback fun _ hr => not_buffer_of_procEntries hr l.chat_buffer

theorem register_eq (l : Life) (o : Answers) : ∃ major, register l o =
    if o.region then
      if o.cdev_add then
        (Chat.dev_init l.dev o.kmalloc).map fun dev =>
          ({ (l.acquire [.region major]).acquire [.cdev, .devclass, .device major 0] with
            dev, major }, true)
      else
        some ({ kfree ((l.acquire [.region major]).release [.region major]) l.chat_buffer with
          major }, false)
    else some ({ kfree l l.chat_buffer with major }, false) :=
  ⟨if l.major ≠ 0 then l.major else o.dynamic, rfl⟩

theorem Entered.loaded {l : Life} {o : Answers} (h : Entered l o) (hmade : o.filesMade = true)
    {dev : State} {ok : Bool} (hdev : Chat.dev_init l.dev ok = some dev) (major : Nat) :
    Loaded { (l.acquire [.region major]).acquire [.cdev, .devclass, .device major 0] with
      dev, major } := by
  obtain ⟨hdir, hadd, hreset, hstat⟩ := h.made hmade
  have hcount : dev.user_count = 1 := by rw [dev_init_user_count hdev, h.count]
  have hreg := h.holding.acquire (List.nodup_singleton (Resource.region major)) fun r hr => by
    rw [List.mem_singleton.mp hr]
    exact region_free
  have hnodup : [Resource.cdev, .devclass, .device major 0].Nodup := by simp
  have hall := hreg.acquire hnodup fun r hr => by
    rw [procEntries_of_made hmade]
    simp at hr
    rcases hr with rfl | rfl | rfl <;> simp [mem_buffers]
  refine ⟨hdir, hadd, hreset, hstat, h.fresh, hall.congr fun r => ?_⟩
  rw [mem_owned, procEntries_of_made hmade]
  change _ ↔ r ∈ buffers l.chat_buffer ∨ _ ∨ (∃ i < dev.user_count, r = .device major i) ∨ _
  rw [hcount]
  -- both sides name the same resources, in the order of `dev_init` and of `dev_exit`
  simp [or_assoc, or_comm, or_left_comm]

theorem register_cases {l l' : Life} {o : Answers} {ok : Bool} (h : Entered l o)
    (hmade : o.filesMade = true) (hreg : register l o = some (l', ok)) :
    ok = true ∧ (o.region = true ∧ o.cdev_add = true) ∧ Loaded l' ∨
      ok = false ∧ ¬ (o.region = true ∧ o.cdev_add = true) ∧ Holding l'.log (procEntries o) := by
  obtain ⟨major, heq⟩ := register_eq l o
  rw [heq] at hreg
  by_cases hregion : o.region = true
  · rw [if_pos hregion] at hreg
    by_cases hcdev : o.cdev_add = true
    · rw [if_pos hcdev] at hreg
      obtain ⟨dev, hdev, hl⟩ := Option.map_eq_some_iff.mp hreg
      cases hl
      exact Or.inl ⟨rfl, ⟨hregion, hcdev⟩, h.loaded hmade hdev major⟩
    · rw [if_neg hcdev] at hreg
      cases hreg
      exact Or.inr ⟨rfl, fun hboth => hcdev hboth.2, h.err_cdev major⟩
  · rw [if_neg hregion] at hreg
    cases hreg
    exact Or.inr ⟨rfl, fun hboth => hregion hboth.1, h.err⟩

/-- A load that succeeds leaves a loaded module; one that fails leaves the proc entries. -/
theorem dev_init_cases {major : Nat} {o : Answers} {l : Life} {ok : Bool}
    (h : dev_init (Life.blank major) o = some (l, ok)) :
    ok = true ∧ o.Loads ∧ Loaded l ∨
      ok = false ∧ ¬ o.Loads ∧ Holding l.log (procEntries o) := by
  obtain ⟨m, hm, heq⟩ := dev_init_entered major o
  rw [heq] at h
  by_cases hmade : o.filesMade = true
  · rw [if_pos hmade] at h
    rcases register_cases hm hmade h with ⟨hok, hboth, hl⟩ | ⟨hok, hboth, hl⟩
    · exact Or.inl ⟨hok, ⟨hmade, hboth⟩, hl⟩
    · exact Or.inr ⟨hok, fun hloads => hboth hloads.2, hl⟩
  · rw [if_neg hmade] at h
    cases h
    exact Or.inr ⟨rfl, fun hloads => hmade hloads.1, hm.err⟩

/-! ## The calls and `dev_exit` -/

theorem buffer_mem_owned {l : Life} {n : Nat} : .buffer n ∈ owned l ↔ n ∈ l.chat_buffer := by
  rw [mem_owned, mem_buffers]
  simp

theorem device_mem_owned {l : Life} {major i : Nat} :
    .device major i ∈ owned l ↔ i < l.dev.user_count ∧ major = l.major := by
  rw [mem_owned, mem_buffers]
  simp

theorem mem_owned_device {l l' : Life} (hbuf : l'.chat_buffer = l.chat_buffer)
    (hmajor : l'.major = l.major) (hcount : l'.dev.user_count = l.dev.user_count + 1)
    (r : Resource) : r ∈ owned l' ↔ r ∈ owned l ∨ r = .device l.major l.dev.user_count := by
  have hdev : (∃ i < l.dev.user_count + 1, r = .device l.major i) ↔
      (∃ i < l.dev.user_count, r = .device l.major i) ∨ r = .device l.major l.dev.user_count := by
    constructor
    · rintro ⟨i, hi, rfl⟩
      rcases Nat.lt_succ_iff_lt_or_eq.mp hi with hlt | rfl
      · exact Or.inl ⟨i, hlt, rfl⟩
      · exact Or.inr rfl
    · rintro (⟨i, hi, rfl⟩ | rfl)
      · exact ⟨i, Nat.lt_succ_of_lt hi, rfl⟩
      · exact ⟨_, Nat.lt_succ_self _, rfl⟩
  rw [mem_owned, mem_owned, hbuf, hmajor, hcount, hdev]
  simp only [or_comm, or_left_comm]

theorem mem_owned_buffer {l l' : Life} (hmajor : l'.major = l.major)
    (hcount : l'.dev.user_count = l.dev.user_count) (r : Resource) :
    r ∈ owned l' ↔ r ∈ owned l ∧ r ∉ buffers l.chat_buffer ∨ r ∈ buffers l'.chat_buffer := by
  have hrest : r ∈ [.file .add, .file .reset, .file .stat, .dir] ∨
      (∃ i < l.dev.user_count, r = .device l.major i) ∨
      r ∈ [.devclass, .cdev, .region l.major] → r ∉ buffers l.chat_buffer := by
    intro hr hb
    obtain ⟨n, _, rfl⟩ := mem_buffers.mp hb
    simp at hr
  rw [mem_owned, mem_owned, hmajor, hcount]
  constructor
  · rintro (hbuf | hr)
    · exact Or.inr hbuf
    · exact Or.inl ⟨Or.inr hr, hrest hr⟩
  · rintro (⟨hbuf | hr, hnot⟩ | hbuf)
    · exact absurd hbuf hnot
    · exact Or.inr hr
    · exact Or.inl hbuf

/-- A buffer just returned by `kmalloc` is a new one. -/
theorem Loaded.not_owned {l : Life} (h : Loaded l) {p : Option Nat}
    (hp : ∀ n ∈ p, l.kmallocs = n) : ∀ r ∈ buffers p, r ∉ owned l := by
  intro r hr hmem
  obtain ⟨n, hn, rfl⟩ := mem_buffers.mp hr
  have hlt := h.fresh n (buffer_mem_owned.mp hmem)
  rw [hp n hn] at hlt
  exact Nat.lt_irrefl n hlt

theorem proc_write_add_user_count {s : State} {buffer : List UInt8} {length left : Nat}
    {r : State × Nat} (h : Chat.proc_write_add s buffer length left = some r) :
    r.1.user_count = s.user_count + 1 := by
  unfold Chat.proc_write_add at h
  obtain ⟨_, _, h⟩ := Option.bind_eq_some_iff.mp h
  obtain ⟨_, _, h⟩ := Option.bind_eq_some_iff.mp h
  obtain ⟨_, _, h⟩ := Option.bind_eq_some_iff.mp h
  cases h
  rfl

/-- `user_name` is gone again; the device is new. -/
theorem Loaded.register {l : Life} (h : Loaded l) {dev : State}
    (hcount : dev.user_count = l.dev.user_count + 1) {p : Option Nat} {k : Nat}
    (hk : l.kmallocs ≤ k) (hp : ∀ n ∈ p, l.kmallocs = n) :
    Loaded { kfree ((l.acquire (buffers p)).acquire [.device l.major l.dev.user_count]) p with
      dev, kmallocs := k } := by
  have hnew := h.not_owned hp
  have hname := h.holding.acquire (nodup_buffers p) hnew
  have hdevice := hname.acquire
    (List.nodup_singleton (Resource.device l.major l.dev.user_count)) fun r hr => by
      rw [List.mem_singleton.mp hr, List.mem_append, device_mem_owned, mem_buffers]
      simp
  have hfree := hdevice.release (nodup_buffers p) fun r hr =>
    List.mem_append_left _ (List.mem_append_right _ hr)
  refine ⟨h.proc_dir, h.proc_file_add, h.proc_file_reset, h.proc_file_stat,
    fun n hn => Nat.lt_of_lt_of_le (h.fresh n hn) hk, hfree.congr fun r => ?_⟩
  refine Iff.trans ?_ (mem_owned_device (l := l) (by rfl) (by rfl) (by exact hcount) r).symm
  rw [List.mem_filter, decide_eq_true_iff, List.mem_append, List.mem_append, List.mem_singleton]
  constructor
  · rintro ⟨(hr | hr) | hr, hnot⟩
    · exact Or.inl hr
    · exact absurd hr hnot
    · exact Or.inr hr
  · rintro (hr | rfl)
    · exact ⟨Or.inl (Or.inl hr), fun hb => hnew r hb hr⟩
    · refine ⟨Or.inr rfl, ?_⟩
      rw [mem_buffers]
      simp

theorem Loaded.add {l l' : Life} (h : Loaded l) {buffer : List UInt8} {length left : Nat}
    (hstep : proc_write_add l buffer length left = some l') : Loaded l' := by
  obtain ⟨p, k, hkmalloc, hk, hfresh⟩ := kmalloc_eq l length true
  unfold proc_write_add at hstep
  rw [hkmalloc] at hstep
  obtain ⟨⟨dev, n⟩, hdev, rfl⟩ := Option.map_eq_some_iff.mp hstep
  exact h.register (proc_write_add_user_count hdev) hk fun n hn => (hfresh n hn).1

/-- A reset that stores swaps the buffer for a new one or for null. -/
theorem Loaded.swap {l : Life} (h : Loaded l) {dev : State}
    (hcount : dev.user_count = l.dev.user_count) {p : Option Nat} {k : Nat}
    (hp : ∀ n ∈ p, l.kmallocs = n ∧ n < k) :
    Loaded { (kfree l l.chat_buffer).acquire (buffers p) with
      dev, chat_buffer := p, kmallocs := k } := by
  have hfree := h.holding.release (nodup_buffers l.chat_buffer) fun r hr =>
    mem_owned.mpr (Or.inl hr)
  have hnew := hfree.acquire (nodup_buffers p) fun r hr hmem =>
    h.not_owned (fun n hn => (hp n hn).1) r hr (List.mem_filter.mp hmem).1
  refine ⟨h.proc_dir, h.proc_file_add, h.proc_file_reset, h.proc_file_stat,
    fun n hn => (hp n hn).2, hnew.congr fun r => ?_⟩
  refine Iff.trans ?_ (mem_owned_buffer (l := l) (by rfl) (by exact hcount) r).symm
  rw [List.mem_append, List.mem_filter, decide_eq_true_iff]

theorem Loaded.congr {l : Life} (h : Loaded l) {dev : State}
    (hcount : dev.user_count = l.dev.user_count) : Loaded { l with dev } := by
  refine ⟨h.proc_dir, h.proc_file_add, h.proc_file_reset, h.proc_file_stat, h.fresh,
    h.holding.congr fun r => ?_⟩
  rw [mem_owned, mem_owned, hcount]

theorem Loaded.reset {l : Life} (h : Loaded l) (length : Nat) (parsed : Option UInt64)
    (ok : Bool) : Loaded (proc_write_reset l length parsed ok) := by
  have hcount : (Chat.proc_write_reset l.dev length parsed ok).1.user_count =
      l.dev.user_count :=
    (step_users (a := .reset length parsed ok) (fun _ _ _ hadd => nomatch hadd) rfl).2
  unfold proc_write_reset
  cases parsed with
  | none => exact h.congr hcount
  | some n =>
      dsimp only
      split
      · obtain ⟨p, k, hkmalloc, _, hfresh⟩ :=
          kmalloc_eq (kfree l l.chat_buffer) (n * 1024).toNat ok
        rw [hkmalloc]
        exact h.swap hcount hfresh
      · exact h.congr hcount

theorem loaded_step {l l' : Life} {a : Act} (h : Loaded l) (hstep : step l a = some l') :
    Loaded l' := by
  have hframe : ∀ {b : Act}, (∀ buffer length left, b ≠ .add buffer length left) →
      (Chat.step l.dev b).map (fun dev => { l with dev }) = some l' → Loaded l' := by
    intro b hb hl
    obtain ⟨dev, hdev, rfl⟩ := Option.map_eq_some_iff.mp hl
    exact h.congr (step_users hb hdev).2
  cases a with
  | add buffer length left => exact h.add hstep
  | reset length parsed ok =>
      cases hstep
      exact h.reset length parsed ok
  | write index buf count left =>
      exact hframe (b := .write index buf count left) (fun _ _ _ hadd => nomatch hadd) hstep
  | read index count left =>
      exact hframe (b := .read index count left) (fun _ _ _ hadd => nomatch hadd) hstep
  | stat left => exact hframe (b := .stat left) (fun _ _ _ hadd => nomatch hadd) hstep

theorem dev_exit_log {l : Life} (h : Loaded l) :
    (dev_exit l).log = l.log ++ (owned l).map .release := by
  unfold dev_exit cleanup_proc kfree Life.release owned
  simp [h.proc_dir, h.proc_file_add, h.proc_file_reset, h.proc_file_stat]

theorem Loaded.balanced {l : Life} (h : Loaded l) : Balanced (dev_exit l).log := by
  rw [dev_exit_log h]
  refine (h.holding.release (nodup_owned l) fun _ hr => hr).balanced_iff.mpr ?_
  rw [List.filter_eq_nil_iff]
  intro r hr
  simpa using hr

/-! ## Whole lives -/

/-- Everything acquired is released exactly once, and nothing remains, in the lives of the
    module that load, and in those whose load fails at `proc_mkdir`; in no others. -/
theorem life_balanced_iff {major : Nat} {o : Answers} {acts : List Act}
    {log : List (Event Resource)} (h : life major o acts = some log) :
    Balanced log ↔ o.Loads ∨ o.proc_mkdir = false := by
  obtain ⟨⟨l, ok⟩, hinit, h⟩ := Option.bind_eq_some_iff.mp h
  rcases dev_init_cases hinit with ⟨rfl, hloads, hl⟩ | ⟨rfl, hfails, hl⟩
  · obtain ⟨m, hrun, h⟩ := Option.bind_eq_some_iff.mp h
    cases h
    have hm : Loaded m := run_invariant Loaded hl (fun _ _ _ hl hs => loaded_step hl hs) hrun
    exact iff_of_true hm.balanced (Or.inl hloads)
  · cases h
    rw [hl.balanced_iff, procEntries_eq_nil, or_iff_right hfails]

/-- A life with a user and a new buffer of 2048 bytes. -/
theorem life_balanced_iff_reset : ∃ log,
    life 0 ⟨true, true, true, true, true, true, true, 240⟩
      [.add [65, 10] 2 0, .reset 2 (some 2) true] = some log ∧ Balanced log := by
  have hlife : (life 0 ⟨true, true, true, true, true, true, true, 240⟩
      [.add [65, 10] 2 0, .reset 2 (some 2) true]).isSome = true := by decide +kernel
  obtain ⟨log, hlog⟩ := Option.isSome_iff_exists.mp hlife
  exact ⟨log, hlog, (life_balanced_iff hlog).mpr (Or.inl (by decide))⟩

/-- `proc_create` fails for "reset": the directory and "add_user" outlive the module. -/
theorem left_behind : ¬ ∀ (major : Nat) (o : Answers) (acts : List Act)
    (log : List (Event Resource)), life major o acts = some log → Balanced log := by
  intro h
  have hb := h 0 ⟨true, true, true, false, true, true, true, 240⟩ []
    [.acquire (.buffer 0), .acquire .dir, .acquire (.file .add), .release (.buffer 0)]
    (by decide +kernel)
  have hdir : (holds [.acquire (Resource.buffer 0), .acquire .dir, .acquire (.file .add),
      .release (.buffer 0)]).map (fun held => held .dir) = some true := by decide
  unfold Lib.Balanced at hb
  rw [hb] at hdir
  exact absurd hdir (by decide)

end KernelBasecamp.Chat.Lifecycle
