/-
  Lists kept in the order of a key, with equal keys in order of arrival.

  `insertKey key a` puts `a` behind the last entry whose key is at most its own. Arrival order
  is stated key by key: the entries with key `k`, read in list order, are `l.filter (key · = k)`.
  `filter_insertKey` says that an insertion appends to exactly one of these sequences, and
  `perm_of_filter_key` that the sequences determine the list up to a permutation.
-/
import Mathlib

namespace KernelBasecamp.Lib.KeyedList

universe u v

variable {α : Type u} {κ : Type v} [LinearOrder κ] (key : α → κ)

/-- The keys do not decrease along the list. -/
def SortedBy (l : List α) : Prop := l.Pairwise fun a b => key a ≤ key b

theorem SortedBy.cons_iff {a : α} {l : List α} :
    SortedBy key (a :: l) ↔ (∀ b ∈ l, key a ≤ key b) ∧ SortedBy key l :=
  List.pairwise_cons

/-- Insertion behind the last entry whose key is at most that of `a`. -/
def insertKey (a : α) : List α → List α
  | [] => [a]
  | b :: bs => if key a < key b then a :: b :: bs else b :: insertKey a bs

theorem mem_insertKey {a b : α} {l : List α} : b ∈ insertKey key a l ↔ b = a ∨ b ∈ l := by
  induction l with
  | nil => simp [insertKey]
  | cons c l ih =>
      rw [insertKey]
      split
      · exact List.mem_cons
      · rw [List.mem_cons, ih, List.mem_cons]
        exact or_left_comm

/-- What goes in behind a whole list goes into what follows it. -/
theorem insertKey_append {a : α} {l : List α} (h : ∀ b ∈ l, key b ≤ key a) (m : List α) :
    insertKey key a (l ++ m) = l ++ insertKey key a m := by
  induction l with
  | nil => rfl
  | cons b l ih =>
      have hb : ¬ key a < key b := not_lt.mpr (h b List.mem_cons_self)
      rw [List.cons_append, insertKey, if_neg hb, ih fun c hc => h c (List.mem_cons_of_mem b hc)]
      rfl

theorem sortedBy_insertKey {l : List α} (h : SortedBy key l) (a : α) :
    SortedBy key (insertKey key a l) := by
  induction l with
  | nil => exact List.pairwise_singleton _ a
  | cons b l ih =>
      obtain ⟨hb, hl⟩ := (SortedBy.cons_iff key).mp h
      rw [insertKey]
      split
      · next hab =>
          refine (SortedBy.cons_iff key).mpr ⟨fun c hc => ?_, h⟩
          rcases List.mem_cons.mp hc with rfl | hc
          · exact hab.le
          · exact hab.le.trans (hb c hc)
      · next hab =>
          refine (SortedBy.cons_iff key).mpr ⟨fun c hc => ?_, ih hl⟩
          rcases (mem_insertKey key).mp hc with rfl | hc
          · exact not_lt.mp hab
          · exact hb c hc

/-- An insertion into a sorted list appends `a` to the entries with its key and leaves the
    entries with any other key as they are. -/
theorem filter_insertKey {l : List α} (h : SortedBy key l) (a : α) (k : κ) :
    (insertKey key a l).filter (key · = k) =
      l.filter (key · = k) ++ [a].filter (key · = k) := by
  induction l with
  | nil => rfl
  | cons b l ih =>
      obtain ⟨hb, hl⟩ := (SortedBy.cons_iff key).mp h
      rw [insertKey]
      split
      · next hab =>
          by_cases hk : key a = k
          · -- the entries behind `a` have larger keys
            have hnone : (b :: l).filter (key · = k) = [] := by
              refine List.filter_eq_nil_iff.mpr fun c hc => ?_
              have hac : key a < key c := by
                rcases List.mem_cons.mp hc with rfl | hc
                · exact hab
                · exact hab.trans_le (hb c hc)
              simpa [← hk] using hac.ne'
            rw [List.filter_cons, hnone, List.nil_append, List.filter_cons, List.filter_nil]
          · simp [hk]
      · rw [List.filter_cons, List.filter_cons, ih hl]
        split <;> rfl

/-- Lists with the same entries for every key, in the same order, are permutations. -/
theorem perm_of_filter_key [DecidableEq α] {l m : List α}
    (h : ∀ k, l.filter (key · = k) = m.filter (key · = k)) : l.Perm m := by
  refine List.perm_iff_count.mpr fun a => ?_
  have hcount : ∀ l : List α, (l.filter (key · = key a)).count a = l.count a := fun l =>
    List.count_filter (by simp)
  rw [← hcount l, ← hcount m, h]

end KernelBasecamp.Lib.KeyedList
