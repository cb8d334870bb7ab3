/-
  Extended regular expressions, written as those of formal language theory, and names in paths.

  A bracket expression, an optional group and a literal text are defined from Mathlib's
  operators; `mem_oneOf`, `mem_optional`, `mem_literal` and `mem_star_oneOf` say what they match.
  `behind sep path` has the names that stand behind a separator; `exists_behind_iff` finds them
  from the separator that the expression matched.
-/
import Mathlib
import KernelBasecamp.Lib.Stretches

namespace KernelBasecamp.Lib.Ere

variable {α : Type}

/-! ## Expressions -/

/-- A bracket expression. -/
def oneOf (cs : List α) : RegularExpression α := (cs.map .char).sum

/-- `P?`. -/
def optional (P : RegularExpression α) : RegularExpression α := 1 + P

def literal (t : List α) : RegularExpression α := (t.map .char).prod

theorem mem_char {c : α} {x : List α} : x ∈ (RegularExpression.char c).matches' ↔ x = [c] := Iff.rfl

theorem mem_oneOf {cs x : List α} : x ∈ (oneOf cs).matches' ↔ ∃ c ∈ cs, x = [c] := by
  induction cs with
  | nil => simp [oneOf, RegularExpression.matches'_zero]
  | cons c cs ih =>
      unfold oneOf at ih ⊢
      rw [List.map_cons, List.sum_cons, RegularExpression.matches'_add, Language.mem_add, ih,
        mem_char, List.exists_mem_cons_iff]

theorem mem_optional {P : RegularExpression α} {x : List α} :
    x ∈ (optional P).matches' ↔ x = [] ∨ x ∈ P.matches' := by
  unfold optional
  rw [RegularExpression.matches'_add, Language.mem_add, RegularExpression.matches'_epsilon,
    Language.mem_one]

theorem mem_literal {t x : List α} : x ∈ (literal t).matches' ↔ x = t := by
  induction t generalizing x with
  | nil => simp [literal, RegularExpression.matches'_epsilon, Language.mem_one]
  | cons c t ih =>
      unfold literal at ih ⊢
      rw [List.map_cons, List.prod_cons, RegularExpression.matches'_mul, Language.mem_mul]
      simp only [ih, mem_char]
      constructor
      · rintro ⟨a, rfl, b, rfl, rfl⟩
        rfl
      · rintro rfl
        exact ⟨[c], rfl, t, rfl, rfl⟩

/-- `.*` matches everything. -/
theorem mem_star_oneOf {cs x : List α} (h : ∀ c ∈ x, c ∈ cs) :
    x ∈ (oneOf cs).star.matches' := by
  rw [RegularExpression.matches'_star, Language.mem_kstar]
  refine ⟨x.map fun c => [c], ?_, fun y hy => ?_⟩
  · rw [← List.flatMap_def, List.flatMap_singleton']
  · obtain ⟨c, hc, rfl⟩ := List.mem_map.mp hy
    exact mem_oneOf.mpr ⟨c, h c hc, rfl⟩

/-! ## Paths -/

section

variable [DecidableEq α] {sep : α}

/-- The names behind the separators of a path. -/
def behind (sep : α) : List α → List (List α)
  | [] => []
  | c :: t => if c = sep then t.takeWhile (· ≠ sep) :: behind sep t else behind sep t

theorem takeWhile_ne {name : List α} (h : sep ∉ name) : name.takeWhile (· ≠ sep) = name :=
  List.takeWhile_eq_self_iff.mpr fun c hc => decide_eq_true fun heq : c = sep => h (heq ▸ hc)

/-- A path goes on: its last name ends at the next separator. -/
theorem behind_append (path rest : List α) :
    behind sep (path ++ sep :: rest) = behind sep path ++ behind sep (sep :: rest) := by
  induction path with
  | nil => rfl
  | cons c path ih =>
      have htake := takeWhile_append_cons (p := (· ≠ sep)) (c := sep)
        (decide_eq_false fun hne => hne rfl) path rest
      rw [List.cons_append, behind, behind]
      split
      · rw [ih, htake, List.cons_append]
      · exact ih

theorem behind_of_not_mem {name : List α} (h : sep ∉ name) : behind sep name = [] := by
  induction name with
  | nil => rfl
  | cons c name ih =>
      obtain ⟨hc, hname⟩ := List.ne_and_not_mem_of_not_mem_cons h
      rw [behind, if_neg hc.symm, ih hname]

theorem behind_name {name : List α} (h : sep ∉ name) : behind sep (sep :: name) = [name] := by
  rw [behind, if_pos rfl, takeWhile_ne h, behind_of_not_mem h]

/-- What stands behind some separator, up to the next one. -/
theorem exists_behind_iff {path : List α} {P : List α → Prop} :
    (∃ pre suf, path = pre ++ sep :: suf ∧ P (suf.takeWhile (· ≠ sep))) ↔
      ∃ name ∈ behind sep path, P name := by
  induction path with
  | nil => simp [behind]
  | cons c path ih =>
      have hsplit : (∃ pre suf, c :: path = pre ++ sep :: suf ∧ P (suf.takeWhile (· ≠ sep))) ↔
          (c = sep ∧ P (path.takeWhile (· ≠ sep))) ∨
            ∃ pre suf, path = pre ++ sep :: suf ∧ P (suf.takeWhile (· ≠ sep)) := by
        constructor
        · rintro ⟨pre, suf, hpath, hP⟩
          cases pre with
          | nil => cases hpath; exact .inl ⟨rfl, hP⟩
          | cons d pre => cases hpath; exact .inr ⟨pre, suf, rfl, hP⟩
        · rintro (⟨rfl, hP⟩ | ⟨pre, suf, rfl, hP⟩)
          · exact ⟨[], path, rfl, hP⟩
          · exact ⟨c :: pre, suf, rfl, hP⟩
      rw [hsplit, ih, behind]
      split
      · next hc => rw [List.exists_mem_cons_iff, and_iff_right hc]
      · next hc => rw [or_iff_right fun h => hc h.1]

end

end KernelBasecamp.Lib.Ere
