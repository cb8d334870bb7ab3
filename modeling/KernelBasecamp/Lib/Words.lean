/-
  Words joined by a separator, `[sep].intercalate ws`.

  * `intercalate_append`, `intercalate_concat`: at the end of the text.
  * `length_intercalate`: its length, whatever the order of the words.
  * `reverse_intercalate`: a text read backwards is its words read backwards, in reverse order.
  * `words_induct`: induction over a text, word by word.
  * `forall₂_intercalate`: a change of the text place by place that leaves the separators where
    they are is a change of its words.
-/
import Mathlib

namespace KernelBasecamp.Lib

universe u

variable {α : Type u} {sep : α}

theorem intercalate_concat {ws : List (List α)} (h : ws ≠ []) (w : List α) :
    [sep].intercalate (ws ++ [w]) = [sep].intercalate ws ++ sep :: w := by
  induction ws with
  | nil => exact absurd rfl h
  | cons v ws ih =>
      cases ws with
      | nil => simp
      | cons v' ws =>
          rw [List.cons_append, List.cons_append, List.intercalate_cons_cons,
            ← List.cons_append, ih (List.cons_ne_nil _ _), List.intercalate_cons_cons]
          simp only [List.append_assoc]

theorem length_intercalate (ws : List (List α)) :
    ([sep].intercalate ws).length = (ws.map List.length).sum + (ws.length - 1) := by
  induction ws with
  | nil => rfl
  | cons w ws ih =>
      cases ws with
      | nil => simp
      | cons w' ws =>
          rw [List.intercalate_cons_cons, List.length_append, List.length_append, ih]
          simp only [List.map_cons, List.sum_cons, List.length_cons, List.length_nil]
          omega

/-- What follows the text belongs to its last word. -/
theorem intercalate_append (ws : List (List α)) (w t : List α) :
    [sep].intercalate (ws ++ [w]) ++ t = [sep].intercalate (ws ++ [w ++ t]) := by
  cases ws with
  | nil => simp
  | cons v ws =>
      rw [intercalate_concat (List.cons_ne_nil _ _), intercalate_concat (List.cons_ne_nil _ _),
        List.append_assoc, List.cons_append]

theorem reverse_intercalate (ws : List (List α)) :
    ([sep].intercalate ws).reverse = [sep].intercalate (ws.map List.reverse).reverse := by
  induction ws with
  | nil => rfl
  | cons w ws ih =>
      cases ws with
      | nil => simp
      | cons w' ws =>
          have hne : ((w' :: ws).map List.reverse).reverse ≠ [] := by simp
          rw [List.map_cons, List.reverse_cons, intercalate_concat hne, ← ih,
            List.intercalate_cons_cons]
          simp only [List.reverse_append, List.reverse_cons, List.append_assoc,
            List.singleton_append]

/-- A last word without a separator, or a word, a separator and a text. -/
@[elab_as_elim]
theorem words_induct (sep : α) {P : List α → Prop} (last : ∀ w, sep ∉ w → P w)
    (more : ∀ w t, sep ∉ w → P t → P (w ++ sep :: t)) (t : List α) : P t := by
  induction hn : t.length using Nat.strongRecOn generalizing t with
  | ind n ih =>
      by_cases hsep : sep ∈ t
      · obtain ⟨w, r, rfl, hw⟩ := List.eq_append_cons_of_mem hsep
        refine more w r hw (ih r.length ?_ r rfl)
        rw [← hn, List.length_append, List.length_cons]
        omega
      · exact last t hsep

theorem forall₂_intercalate {R : α → α → Prop} (hsep : ∀ a, R a sep → a = sep)
    {ws : List (List α)} {t : List α} (h : List.Forall₂ R t ([sep].intercalate ws)) :
    ∃ vs, t = [sep].intercalate vs ∧ List.Forall₂ (List.Forall₂ R) vs ws := by
  induction ws generalizing t with
  | nil =>
      cases h
      exact ⟨[], rfl, .nil⟩
  | cons w ws ih =>
      cases ws with
      | nil =>
          rw [List.intercalate_singleton] at h
          exact ⟨[t], List.intercalate_singleton.symm, .cons h .nil⟩
      | cons w' ws =>
          rw [List.intercalate_cons_cons, List.append_assoc] at h
          -- the text splits where its first word ends
          have hw := List.forall₂_take_append t _ _ h
          have hrest := List.forall₂_drop_append t _ _ h
          obtain ⟨a, r, ha, hr, hdrop⟩ := List.forall₂_cons_right_iff.mp hrest
          rw [hsep a ha] at hdrop
          obtain ⟨vs, rfl, hall⟩ := ih hr
          obtain ⟨v, vs, _, _, rfl⟩ := List.forall₂_cons_right_iff.mp hall
          refine ⟨t.take w.length :: v :: vs, ?_, .cons hw hall⟩
          rw [List.intercalate_cons_cons, List.append_assoc, List.singleton_append, ← hdrop,
            List.take_append_drop]

end KernelBasecamp.Lib
