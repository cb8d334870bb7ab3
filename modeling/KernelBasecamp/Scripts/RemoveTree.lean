/-
  What remove_files.sh leaves of the tree below its directory.

  `find` goes through the tree. With `-delete` it comes to the contents of a directory before
  the directory, and what it selects it removes, a directory only when it is empty by then;
  otherwise it comes to a directory first, and prints what it selects. In which order it comes to
  the entries of a directory is up to the file system, so a `Walk` is any order. The tree is the
  set of its paths, the directory itself the empty one.

  The directory is a `StartingPoint`: the script does not quote it, and `find` takes a word that
  looks like an option or an operator for one. `find` may remove everything but the directory
  itself when it is given as `./`, say, which `rmdir` does not take (`Erasable`).

  * `picks_iff`: what is selected, by the names of the path.
  * `remove_files_leaves`: what is left after the script.
-/
import KernelBasecamp.Lib.PathTree
import KernelBasecamp.Scripts.RemoveFiles
import KernelBasecamp.Scripts.Words

namespace KernelBasecamp.Scripts

open Lib.Ere Lib.PathTree

/-- The names on the way down. -/
abbrev Path := List (List UInt8)

abbrev Tree := Finset Path

/-- The path as `find` makes it: a slash at the end of the directory is not doubled. -/
def found (dir : List UInt8) : Path → List UInt8
  | [] => dir
  | name :: names => path (if dir.getLast? = some 47 then dir.dropLast else dir) (name :: names)

/-- The paths that are shown or removed, also for a directory with a slash at its end. -/
def Options.picks (o : Options) (names : Path) : Prop :=
  o.visits names ∧ found o.dir names ∈ pattern.matches'

/-- The last name of a directory, whatever slashes are behind it. -/
def baseName (dir : List UInt8) : List UInt8 :=
  ((dir.reverse.dropWhile (· = 47)).takeWhile (· ≠ 47)).reverse

/-- `rmdir` takes neither the root nor a path whose last name is `.` or `..`. -/
def Erasable (dir : List UInt8) : Prop :=
  baseName dir ≠ [] ∧ baseName dir ≠ [46] ∧ baseName dir ≠ [46, 46]

/-- The paths that are removed if nothing is below them any more. -/
def Options.removes (o : Options) (names : Path) : Prop :=
  o.picks names ∧ (names = [] → Erasable o.dir)

instance (o : Options) : DecidablePred o.visits := fun names =>
  inferInstanceAs (Decidable (∀ d ∈ o.maxdepth, names.length ≤ d))

instance (o : Options) : DecidablePred o.picks := fun _ => inferInstanceAs (Decidable (_ ∧ _))

instance : DecidablePred Erasable := fun _ => inferInstanceAs (Decidable (_ ∧ _ ∧ _))

-- `./` and `a/`
example : ¬ Erasable [46, 47] ∧ Erasable [97, 47] := by decide +kernel

instance (o : Options) : DecidablePred o.removes := fun names =>
  inferInstanceAs (Decidable (o.picks names ∧ (names = [] → Erasable o.dir)))

/-- `find` with the arguments that the script has put together, going through the tree in the
    order of `walk`: what is left of the tree, and what is printed. -/
def find (o : Options) (t : Tree) (walk : List Path) : Tree × List (List UInt8) :=
  if o.delete then (removeAll t (walk.filter fun p => o.removes p), [])
  else (t, (walk.filter fun p => o.picks p).map (found o.dir))

/-- A directory that the shell hands on as it stands and `find` takes for one: it does not begin
    like an option or an operator. -/
structure StartingPoint (dir : List UInt8) : Prop where
  plain : Plain dir
  path : ∀ c ∈ dir.head?, c ∉ [45, 40, 41, 33, 44]

instance (dir : List UInt8) : Decidable (StartingPoint dir) :=
  decidable_of_iff (Plain dir ∧ ∀ c ∈ dir.head?, c ∉ [45, 40, 41, 33, 44])
    ⟨fun h => ⟨h.1, h.2⟩, fun h => ⟨h.plain, h.path⟩⟩

/-- The script; `none` when it shows its help. Directories that are no `StartingPoint` are left
    out, and are `none` too. -/
def remove_files (disk : List UInt8 → Tree) (walk : Options → List Path)
    (args : List (List UInt8)) : Option (Tree × List (List UInt8)) := do
  let o ← parse Options.default args
  if StartingPoint o.dir then some (find o (disk o.dir) (walk o)) else none

/-- An order in which `find` may come to the paths. -/
structure Walk (o : Options) (t : Tree) (walk : List Path) : Prop where
  mem_iff : ∀ p, p ∈ walk ↔ p ∈ t ∧ o.visits p
  depthFirst : o.delete = true → DepthFirst walk

/-! ## Paths -/

theorem length_lt_found (dir name : List UInt8) (hname : FileName name) (names : Path) :
    dir.length < (found dir (name :: names)).length := by
  have hpos := List.length_pos_iff.mpr hname.ne_nil
  unfold found path
  dsimp only
  rw [List.flatMap_cons, List.length_append, List.length_append, List.length_cons]
  split
  · rw [List.length_dropLast]
    omega
  · omega

/-- Different paths are shown differently. -/
theorem found_injective {dir : List UInt8} {p q : Path} (hp : ∀ name ∈ p, FileName name)
    (hq : ∀ name ∈ q, FileName name) (h : found dir p = found dir q) : p = q := by
  cases p with
  | nil =>
      cases q with
      | nil => rfl
      | cons name q =>
          have hlt := length_lt_found dir name (hq name List.mem_cons_self) q
          rw [← h] at hlt
          exact absurd hlt (Nat.lt_irrefl _)
  | cons name p =>
      cases q with
      | nil =>
          have hlt := length_lt_found dir name (hp name List.mem_cons_self) p
          rw [h] at hlt
          exact absurd hlt (Nat.lt_irrefl _)
      | cons name' q =>
          have hbehind := congrArg (behind 47) h
          unfold found at hbehind
          rw [behind_path _ hp, behind_path _ hq] at hbehind
          exact List.append_cancel_left hbehind

/-! ## What is selected -/

/-- A name behind a slash begins with a mark. -/
def Marked (dir : List UInt8) (names : Path) : Prop :=
  ∃ name ∈ behind 47 dir ++ names, BeginsWith marks name

/-- What stands behind the last slash ends in `.tmp`, or nothing stands there. -/
def Extended (dir : List UInt8) (names : Path) : Prop :=
  match names.getLast? with
  | some last => tmp <:+ last
  | none => 47 ∈ dir ∧ (dir.getLast? = some 47 ∨ tmp <:+ dir)

/-- The slash at the end has no name behind it. -/
theorem marked_dropLast {dir : List UInt8} (h : dir.getLast? = some 47) (names : Path) :
    Marked dir.dropLast names ↔ Marked dir names := by
  obtain ⟨d, rfl⟩ := List.getLast?_eq_some_iff.mp h
  have hbehind : behind 47 (d ++ [47]) = behind 47 d ++ [[]] := behind_append d []
  unfold Marked
  rw [List.dropLast_concat, hbehind, List.append_assoc]
  simp only [List.mem_append, List.mem_singleton, or_and_right, exists_or, exists_eq_left]
  have hnil : ¬ BeginsWith marks [] := by
    rintro ⟨_, hhead, -⟩
    cases hhead
  rw [or_iff_right (a := BeginsWith marks []) hnil]

/-- The directory itself. -/
theorem dir_mem_pattern (dir : List UInt8) :
    dir ∈ pattern.matches' ↔ Marked dir [] ∨ Extended dir [] := by
  have hmarked : Marked dir [] ↔ ∃ pre suf, dir = pre ++ 47 :: suf ∧ BeginsWith marks suf := by
    unfold Marked
    rw [List.append_nil, ← exists_behind_iff]
    simp only [beginsWith_takeWhile]
  rw [mem_pattern, hmarked]
  change _ ↔ _ ∨ (47 ∈ dir ∧ (dir.getLast? = some 47 ∨ tmp <:+ dir))
  constructor
  · rintro ⟨pre, suf, rfl, rfl | hmark | htmp⟩
    · exact .inr ⟨by simp, .inl (by simp)⟩
    · exact .inl ⟨pre, suf, rfl, hmark⟩
    · exact .inr ⟨by simp, .inr ((tmp_suffix_iff pre suf).mpr htmp)⟩
  · rintro (⟨pre, suf, hdir, hmark⟩ | ⟨hmem, hlast | htmp⟩)
    · exact ⟨pre, suf, hdir, .inr (.inl hmark)⟩
    · obtain ⟨d, rfl⟩ := List.getLast?_eq_some_iff.mp hlast
      exact ⟨d, [], rfl, .inl rfl⟩
    · obtain ⟨pre, suf, rfl⟩ := List.append_of_mem hmem
      exact ⟨pre, suf, rfl, .inr (.inr ((tmp_suffix_iff pre suf).mp htmp))⟩

theorem picks_iff {o : Options} {names : Path} (hnames : ∀ name ∈ names, FileName name) :
    o.picks names ↔ o.visits names ∧ (Marked o.dir names ∨ Extended o.dir names) := by
  unfold Options.picks
  refine and_congr_right fun _ => ?_
  rcases List.eq_nil_or_concat' names with rfl | ⟨parents, last, rfl⟩
  · exact dir_mem_pattern o.dir
  · have hext : Extended o.dir (parents ++ [last]) ↔ tmp <:+ last := by
      unfold Extended
      rw [List.getLast?_concat]
    have hfound : found o.dir (parents ++ [last]) =
        path (if o.dir.getLast? = some 47 then o.dir.dropLast else o.dir) (parents ++ [last]) := by
      cases parents with
      | nil => rfl
      | cons name parents => rfl
    rw [hfound, matches_iff _ hnames, hext]
    refine or_congr_left ?_
    split
    · next hslash => exact marked_dropLast hslash _
    · exact Iff.rfl

/-! ## What is left -/

section

variable {o : Options} {t : Tree} {walk : List Path}

theorem find_delete (hdelete : o.delete = true) :
    find o t walk = (removeAll t (walk.filter fun p => o.removes p), []) := if_pos hdelete

theorem find_test (htest : o.delete = false) :
    find o t walk = (t, (walk.filter fun p => o.picks p).map (found o.dir)) :=
  if_neg (by rw [htest]; exact Bool.false_ne_true)

/-- What a walk comes to of the paths that meet a condition on those visited. -/
theorem mem_walked (hwalk : Walk o t walk) {P : Path → Prop} [DecidablePred P]
    (hP : ∀ p, P p → o.visits p) {p : Path} : p ∈ walk.filter (fun p => P p) ↔ p ∈ t ∧ P p := by
  rw [List.mem_filter, hwalk.mem_iff, decide_eq_true_iff, and_assoc]
  exact and_congr_right fun _ => and_iff_right_of_imp (hP p)

theorem mem_picked (hwalk : Walk o t walk) {p : Path} :
    p ∈ walk.filter (fun p => o.picks p) ↔ p ∈ t ∧ o.picks p :=
  mem_walked hwalk fun _ h => h.1

theorem mem_removed (hwalk : Walk o t walk) {p : Path} :
    p ∈ walk.filter (fun p => o.removes p) ↔ p ∈ t ∧ o.removes p :=
  mem_walked hwalk fun _ h => h.1.1

/-- A path is left when something at or below it is not removed. -/
theorem mem_find (hwalk : Walk o t walk) (hdelete : o.delete = true) {p : Path} :
    p ∈ (find o t walk).1 ↔ p ∈ t ∧ ∃ q ∈ t, p <+: q ∧ ¬ o.removes q := by
  rw [find_delete hdelete, mem_removeAll ((hwalk.depthFirst hdelete).filter _)]
  refine and_congr_right fun _ => exists_congr fun q => and_congr_right fun hq => ?_
  rw [mem_removed hwalk, and_iff_right hq]

theorem find_again (hwalk : Walk o t walk) (hdelete : o.delete = true) {walk' : List Path}
    (hwalk' : Walk o (find o t walk).1 walk') :
    find o (find o t walk).1 walk' = ((find o t walk).1, []) := by
  rw [find_delete hdelete] at hwalk' ⊢
  have hfirst := (hwalk.depthFirst hdelete).filter fun p => o.removes p
  have hsub : ∀ q ∈ removeAll t (walk.filter fun p => o.removes p),
      q ∈ walk'.filter (fun p => o.removes p) → q ∈ walk.filter fun p => o.removes p := by
    intro q hq hpick
    have hqt := ((mem_removeAll hfirst).mp hq).1
    exact (mem_removed hwalk).mpr ⟨hqt, ((mem_removed hwalk').mp hpick).2⟩
  rw [find_delete hdelete,
    removeAll_again hfirst ((hwalk'.depthFirst hdelete).filter fun p => o.removes p) hsub]

/-- With `-t`, a path is shown exactly if it is selected. -/
theorem found_mem_shown (hwalk : Walk o t walk) (htest : o.delete = false)
    (hnames : ∀ p ∈ t, ∀ name ∈ p, FileName name) {p : Path} (hp : p ∈ t) :
    found o.dir p ∈ (find o t walk).2 ↔ o.picks p := by
  rw [find_test htest, List.mem_map]
  constructor
  · rintro ⟨q, hq, hfound⟩
    obtain ⟨hqt, hpick⟩ := (mem_picked hwalk).mp hq
    rwa [found_injective (hnames q hqt) (hnames p hp) hfound] at hpick
  · exact fun hpick => ⟨p, (mem_picked hwalk).mpr ⟨hp, hpick⟩, rfl⟩

end

/-- `_keep/notes.txt` and `notes.txt`. -/
def notesTree : Tree := {[], [keep], [keep, notes], [notes]}

def notesWalk (o : Options) : List Path :=
  [[keep, notes], [keep], [notes], []].filter fun p => o.visits p

theorem notesWalk_walk (o : Options) : Walk o notesTree (notesWalk o) := by
  refine ⟨fun p => ?_, fun _ => DepthFirst.filter ?_ _⟩
  · unfold notesWalk notesTree
    rw [List.mem_filter, decide_eq_true_iff]
    refine and_congr_left fun _ => ?_
    simp only [List.mem_cons, List.not_mem_nil, or_false, Finset.mem_insert, Finset.mem_singleton]
    tauto
  · unfold DepthFirst
    decide

end KernelBasecamp.Scripts
