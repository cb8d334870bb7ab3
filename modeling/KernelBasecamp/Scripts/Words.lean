/-
  What the shell makes of a variable that a script does not quote: it splits its text into words
  and expands the patterns that it finds in them. `words` is the splitting, and a `Plain` text is
  one word in which there is nothing to expand.
-/
import Mathlib

namespace KernelBasecamp.Scripts

/-- Space, tab and newline. -/
def isIFS (c : UInt8) : Bool := c = 32 || c = 9 || c = 10

/-- What `for f in $l` runs through. -/
def words (text : List UInt8) : List (List UInt8) := (text.splitOnP isIFS).filter (· ≠ [])

/-- A text that the shell takes as one word and as it stands: not `*`, `?`, `[` or a backslash
    in it. -/
structure Plain (f : List UInt8) : Prop where
  ne_nil : f ≠ []
  one_word : ∀ c ∈ f, isIFS c = false
  no_pattern : ∀ c ∈ f, c ≠ 42 ∧ c ≠ 63 ∧ c ≠ 91 ∧ c ≠ 92

instance (f : List UInt8) : Decidable (Plain f) :=
  decidable_of_iff (f ≠ [] ∧ (∀ c ∈ f, isIFS c = false) ∧
      ∀ c ∈ f, c ≠ 42 ∧ c ≠ 63 ∧ c ≠ 91 ∧ c ≠ 92)
    ⟨fun ⟨h1, h2, h3⟩ => ⟨h1, h2, h3⟩, fun ⟨h1, h2, h3⟩ => ⟨h1, h2, h3⟩⟩

theorem words_line {f : List UInt8} (h : Plain f) (text : List UInt8) :
    words (f ++ 10 :: text) = f :: words text := by
  have hsplit : (f ++ 10 :: text).splitOnP isIFS = f :: text.splitOnP isIFS :=
    List.splitOnP_append_cons_of_forall_mem h.one_word 10 rfl text
  unfold words
  rw [hsplit, List.filter_cons_of_pos (by simpa using h.ne_nil)]

/-- The words are the names that `find` has printed. -/
theorem words_lines {old : List (List UInt8)} (h : ∀ f ∈ old, Plain f) :
    words (old.flatMap fun f => f ++ [10]) = old := by
  induction old with
  | nil => rfl
  | cons f old ih =>
      rw [List.flatMap_cons, List.append_assoc, List.singleton_append,
        words_line (h f List.mem_cons_self), ih fun g hg => h g (List.mem_cons_of_mem f hg)]

end KernelBasecamp.Scripts
