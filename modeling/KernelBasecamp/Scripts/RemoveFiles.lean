/-
  The script remove_files.sh of exercise01: which of the paths below a directory it removes.

  The options become the arguments of `find`, which walks the directory and tests each path as a
  whole against a regular expression of the type posix-extended: anchored at both ends, `.`
  matches any character, also `/`, and a backslash in brackets stands for itself. The locale is
  one of single bytes, in which every byte is a character; in UTF-8 `.` would leave out the bytes
  that are none. A path below the directory is its name and then, each behind a `/`, the names on
  the way down.

  * `matches_iff`: the paths that match are those whose last name ends in `.tmp`, and those in
    which any name behind a `/` begins with a byte of the brackets.
  * `selects_iff`: where this comes to the same as a temporary last name.
  * `notes_selected`: a file that is not temporary, in a directory that seems to be.
-/
import KernelBasecamp.Lib.Ere

namespace KernelBasecamp.Scripts

open Lib.Ere

/-! ## The options -/

/-- `$maxdepth` is empty or `-maxdepth 1`, `$delete` is empty or `-delete`. -/
structure Options where
  maxdepth : Option Nat
  delete : Bool
  dir : List UInt8
  deriving DecidableEq, Repr

def Options.default : Options := ⟨some 1, true, [46]⟩

/-- The arguments one after the other; `none` when the help is shown. -/
def parse (o : Options) : List (List UInt8) → Option Options
  | [] => some o
  | key :: args =>
      -- `-h` and `--help`
      if key = [45, 104] ∨ key = [45, 45, 104, 101, 108, 112] then none
      -- `-r` and `--recursive`
      else if key = [45, 114] ∨ key = [45, 45, 114, 101, 99, 117, 114, 115, 105, 118, 101] then
        parse { o with maxdepth := none } args
      -- `-t` and `--test`
      else if key = [45, 116] ∨ key = [45, 45, 116, 101, 115, 116] then
        parse { o with delete := false } args
      else parse { o with dir := key } args

/-! ## The paths -/

/-- `.`, any byte. -/
def dot : RegularExpression UInt8 := oneOf ((List.range 256).map UInt8.ofNat)

/-- `[_~\-]`. -/
def marks : List UInt8 := [95, 126, 92, 45]

/-- `.tmp` -/
def tmp : List UInt8 := [46, 116, 109, 112]

/-- `.*/([_~\-].*)?(.*\.tmp)?` -/
def pattern : RegularExpression UInt8 :=
  dot.star * .char 47 * optional (oneOf marks * dot.star) * optional (dot.star * literal tmp)

/-- The path that `find` makes of the names on the way down from `dir`. -/
def path (dir : List UInt8) (names : List (List UInt8)) : List UInt8 :=
  dir ++ names.flatMap (47 :: ·)

/-- `find` comes to what is not below `-maxdepth`. -/
def Options.visits (o : Options) (names : List (List UInt8)) : Prop :=
  ∀ d ∈ o.maxdepth, names.length ≤ d

/-- The paths below the directory that are shown or removed. -/
def Options.selects (o : Options) (names : List (List UInt8)) : Prop :=
  o.visits names ∧ path o.dir names ∈ pattern.matches'

/-! ## Names -/

/-- The name of a file or a directory. -/
structure FileName (name : List UInt8) : Prop where
  ne_nil : name ≠ []
  no_slash : 47 ∉ name
  no_nul : 0 ∉ name

instance (name : List UInt8) : Decidable (FileName name) :=
  decidable_of_iff (name ≠ [] ∧ 47 ∉ name ∧ 0 ∉ name)
    ⟨fun h => ⟨h.1, h.2.1, h.2.2⟩, fun h => ⟨h.ne_nil, h.no_slash, h.no_nul⟩⟩

def BeginsWith (cs name : List UInt8) : Prop := ∃ c ∈ name.head?, c ∈ cs

/-- The script's purpose: `_`, `~` or `-` at the beginning, or `.tmp` at the end. -/
def Temporary (name : List UInt8) : Prop := BeginsWith [95, 126, 45] name ∨ tmp <:+ name

theorem BeginsWith.append {cs name : List UInt8} (h : BeginsWith cs name) (rest : List UInt8) :
    BeginsWith cs (name ++ rest) := by
  obtain ⟨c, hhead, hc⟩ := h
  exact ⟨c, List.mem_head?_append_of_mem_head? hhead, hc⟩

/-- The first byte is found before the first slash. -/
theorem beginsWith_takeWhile (text : List UInt8) :
    BeginsWith marks (text.takeWhile (· ≠ 47)) ↔ BeginsWith marks text := by
  cases text with
  | nil => exact Iff.rfl
  | cons c text =>
      by_cases hc : c = 47
      · subst hc
        refine iff_of_false ?_ ?_
        · rintro ⟨_, hhead, _⟩
          cases hhead
        · rintro ⟨_, hhead, hc⟩
          cases hhead
          exact absurd hc (by decide)
      · rw [List.takeWhile_cons_of_pos (by simpa using hc)]
        exact Iff.rfl

/-! ## The pattern -/

theorem mem_dot_star (t : List UInt8) : t ∈ dot.star.matches' := by
  refine mem_star_oneOf fun c _ => ?_
  exact List.mem_map.mpr ⟨c.toNat, List.mem_range.mpr c.toNat_lt, UInt8.ofNat_toNat⟩

/-- `([_~\-].*)?` -/
theorem mem_marked {t : List UInt8} :
    t ∈ (optional (oneOf marks * dot.star)).matches' ↔ t = [] ∨ BeginsWith marks t := by
  rw [mem_optional, RegularExpression.matches'_mul, Language.mem_mul]
  refine or_congr_right ⟨?_, ?_⟩
  · rintro ⟨m, hm, rest, -, rfl⟩
    obtain ⟨c, hc, rfl⟩ := mem_oneOf.mp hm
    exact ⟨c, rfl, hc⟩
  · rintro ⟨c, hhead, hc⟩
    obtain ⟨rest, rfl⟩ := List.head?_eq_some_iff.mp hhead
    exact ⟨[c], mem_oneOf.mpr ⟨c, hc, rfl⟩, rest, mem_dot_star rest, rfl⟩

/-- `(.*\.tmp)?` -/
theorem mem_extended {t : List UInt8} :
    t ∈ (optional (dot.star * literal tmp)).matches' ↔ t = [] ∨ tmp <:+ t := by
  rw [mem_optional, RegularExpression.matches'_mul, Language.mem_mul]
  refine or_congr_right ⟨?_, ?_⟩
  · rintro ⟨rest, -, e, he, rfl⟩
    exact ⟨rest, by rw [mem_literal.mp he]⟩
  · rintro ⟨rest, rfl⟩
    exact ⟨rest, mem_dot_star rest, tmp, mem_literal.mpr rfl, rfl⟩

/-- The text behind the slash that the pattern asks for. -/
theorem mem_pattern {t : List UInt8} : t ∈ pattern.matches' ↔
    ∃ pre suf, t = pre ++ 47 :: suf ∧ (suf = [] ∨ BeginsWith marks suf ∨ tmp <:+ suf) := by
  unfold pattern
  simp only [RegularExpression.matches'_mul (_ * _), Language.mem_mul, mem_marked, mem_extended]
  constructor
  · rintro ⟨_, ⟨_, ⟨pre, -, _, rfl, rfl⟩, m, hm, rfl⟩, e, he, rfl⟩
    refine ⟨pre, m ++ e, by simp, ?_⟩
    rcases hm with rfl | hm
    · exact he.imp_right .inr
    · exact .inr (.inl (hm.append e))
  · rintro ⟨pre, suf, rfl, hsuf⟩
    have hslash : pre ++ [47] ∈ (dot.star * .char 47 : RegularExpression UInt8).matches' :=
      Language.mem_mul.mpr ⟨pre, mem_dot_star pre, [47], rfl, rfl⟩
    rcases hsuf with rfl | hmarked | htmp
    · exact ⟨_, ⟨_, hslash, [], .inl rfl, rfl⟩, [], .inl rfl, by simp⟩
    · exact ⟨_, ⟨_, hslash, suf, .inr hmarked, rfl⟩, [], .inl rfl, by simp⟩
    · exact ⟨_, ⟨_, hslash, [], .inl rfl, rfl⟩, suf, .inr htmp, by simp⟩

/-! ## What the script selects -/

theorem path_cons (dir name : List UInt8) (names : List (List UInt8)) :
    path dir (name :: names) = path (dir ++ 47 :: name) names := by
  simp [path]

theorem path_concat (dir : List UInt8) (parents : List (List UInt8)) (last : List UInt8) :
    path dir (parents ++ [last]) = path dir parents ++ 47 :: last := by
  simp [path]

theorem behind_path (dir : List UInt8) {names : List (List UInt8)}
    (hnames : ∀ name ∈ names, FileName name) :
    behind 47 (path dir names) = behind 47 dir ++ names := by
  induction names generalizing dir with
  | nil => simp [path]
  | cons name names ih =>
      have hname := hnames name List.mem_cons_self
      rw [path_cons, ih _ fun n hn => hnames n (List.mem_cons_of_mem name hn), behind_append,
        behind_name hname.no_slash, List.append_assoc, List.singleton_append]

/-- The end of the path is the end of its last name. -/
theorem tmp_suffix_iff (q last : List UInt8) : tmp <:+ q ++ 47 :: last ↔ tmp <:+ last := by
  constructor
  · intro h
    rcases List.suffix_or_suffix_of_suffix h (List.suffix_append q (47 :: last)) with hs | hs
    · rcases List.suffix_cons_iff.mp hs with heq | hs
      · cases heq
      · exact hs
    · -- the slash would be in `.tmp`
      exact absurd (hs.subset List.mem_cons_self) (by decide)
  · exact fun h => h.trans ((List.suffix_cons 47 last).trans (List.suffix_append q _))

/-- A path does not end in a slash. -/
theorem path_ne_concat {last : List UInt8} (hlast : FileName last) (q pre : List UInt8) :
    q ++ 47 :: last ≠ pre ++ [47] := by
  intro heq
  have hend := congrArg List.getLast? heq
  rw [List.getLast?_concat, List.getLast?_append_of_ne_nil _ (List.cons_ne_nil 47 last),
    List.getLast?_cons_of_ne_nil hlast.ne_nil] at hend
  exact hlast.no_slash (List.mem_of_getLast? hend)

/-- The paths that match. -/
theorem matches_iff (dir : List UInt8) {parents : List (List UInt8)} {last : List UInt8}
    (hnames : ∀ name ∈ parents ++ [last], FileName name) :
    path dir (parents ++ [last]) ∈ pattern.matches' ↔
      (∃ name ∈ behind 47 dir ++ (parents ++ [last]), BeginsWith marks name) ∨ tmp <:+ last := by
  have hlast : FileName last := hnames last (List.mem_append_right _ List.mem_cons_self)
  rw [mem_pattern, ← behind_path dir hnames, ← exists_behind_iff, path_concat]
  constructor
  · rintro ⟨pre, suf, hpath, rfl | hmarked | htmp⟩
    · exact absurd hpath (path_ne_concat hlast _ pre)
    · exact .inl ⟨pre, suf, hpath, (beginsWith_takeWhile suf).mpr hmarked⟩
    · refine .inr ((tmp_suffix_iff (path dir parents) last).mp ?_)
      rw [hpath]
      exact htmp.trans ((List.suffix_cons 47 suf).trans (List.suffix_append pre _))
  · rintro (⟨pre, suf, hpath, hmarked⟩ | htmp)
    · exact ⟨pre, suf, hpath, .inr (.inl ((beginsWith_takeWhile suf).mp hmarked))⟩
    · exact ⟨path dir parents, last, rfl, .inr (.inr htmp)⟩

/-- A mark is one of the three, or the backslash that was meant to escape the last of them. -/
theorem beginsWith_marks_iff (name : List UInt8) :
    BeginsWith marks name ↔ BeginsWith [95, 126, 45] name ∨ BeginsWith [92] name := by
  unfold BeginsWith
  rw [← exists_or]
  simp only [← and_or_left, ← List.mem_append]
  refine exists_congr fun c => and_congr_right fun _ => ?_
  simp only [marks, List.mem_cons, List.mem_append, List.not_mem_nil, or_false]
  tauto

/-- The script selects a path below its directory if and only if its last name is temporary,
    exactly when it is temporary or no name of the path behind a slash begins with a mark. -/
theorem selects_iff {o : Options} {parents : List (List UInt8)} {last : List UInt8}
    (hnames : ∀ name ∈ parents ++ [last], FileName name) (hvisits : o.visits (parents ++ [last])) :
    (o.selects (parents ++ [last]) ↔ Temporary last) ↔
      (Temporary last ∨
        ∀ name ∈ behind 47 o.dir ++ (parents ++ [last]), ¬ BeginsWith marks name) := by
  have hselects : o.selects (parents ++ [last]) ↔
      (∃ name ∈ behind 47 o.dir ++ (parents ++ [last]), BeginsWith marks name) ∨ tmp <:+ last := by
    unfold Options.selects
    rw [matches_iff o.dir hnames, and_iff_right hvisits]
  have hmarked : BeginsWith [95, 126, 45] last →
      ∃ name ∈ behind 47 o.dir ++ (parents ++ [last]), BeginsWith marks name := fun h =>
    ⟨last, by simp, (beginsWith_marks_iff last).mpr (.inl h)⟩
  rw [hselects]
  unfold Temporary
  constructor
  · intro h
    by_cases htemp : BeginsWith [95, 126, 45] last ∨ tmp <:+ last
    · exact .inl htemp
    · exact .inr fun name hname hmark => htemp (h.mp (.inl ⟨name, hname, hmark⟩))
  · rintro (htemp | hnone)
    · exact iff_of_true (htemp.imp_left hmarked) htemp
    · refine ⟨?_, fun htemp => htemp.imp_left hmarked⟩
      rintro (⟨name, hname, hmark⟩ | htmp)
      · exact absurd hmark (hnone name hname)
      · exact .inr htmp

/-- `_keep` -/
def keep : List UInt8 := [95, 107, 101, 101, 112]

/-- `notes.txt` -/
def notes : List UInt8 := [110, 111, 116, 101, 115, 46, 116, 120, 116]

/-- The option `-r`. -/
def recursive : Options := ⟨none, true, [46]⟩

theorem keep_notes_names : ∀ name ∈ [keep] ++ [notes], FileName name := by decide

theorem recursive_visits (names : List (List UInt8)) : recursive.visits names :=
  fun _ h => nomatch h

theorem selects_iff_notes : (recursive.selects ([keep] ++ [notes]) ↔ Temporary notes) ↔
    (Temporary notes ∨
      ∀ name ∈ behind 47 recursive.dir ++ ([keep] ++ [notes]), ¬ BeginsWith marks name) :=
  selects_iff keep_notes_names (recursive_visits _)

/-- `./_keep/notes.txt` is removed. -/
theorem notes_selected : ¬ ∀ (args : List (List UInt8)) (o : Options) (parents : List (List UInt8))
    (last : List UInt8), parse Options.default args = some o → o.dir ≠ [] →
    o.dir.getLast? ≠ some 47 → (∀ name ∈ parents ++ [last], FileName name) →
    o.visits (parents ++ [last]) → (o.selects (parents ++ [last]) ↔ Temporary last) := by
  intro h
  have hselected : recursive.selects ([keep] ++ [notes]) :=
    ⟨recursive_visits _, (matches_iff recursive.dir keep_notes_names).mpr
      (.inl ⟨keep, by simp, 95, rfl, by decide⟩)⟩
  rcases (h [[45, 114]] recursive [keep] notes (by decide) (by decide) (by decide)
    keep_notes_names (recursive_visits _)).mp hselected with hmark | htmp
  · obtain ⟨c, hhead, hc⟩ := hmark
    cases hhead
    exact absurd hc (by decide)
  · exact absurd htmp (by decide)

end KernelBasecamp.Scripts
