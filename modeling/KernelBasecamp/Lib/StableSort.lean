/-
  Stable sorts by a key, largest first, and what two of them in a row give.

  `SortedDown key l l'` says that `l'` is `l` sorted by `key`: a permutation of it, in
  descending order, in which the elements of one key keep the order they had in `l`.

  * `SortedDown.lex`, `SortedDown.filter_lex`: after a sort by `k₁` and another by `k₂` the
    list is sorted by `k₂`, elements of equal `k₂` by `k₁`, and elements equal in both keep
    their first order.
  * `StableSorting`: what a library's sort by a three-way comparison promises. The comparison
    has to be `Consistent` on the list sorted, and `StableSorting.sortedDown` is the case of
    one that compares keys.
  * `stableSorting_mergeSort`: merge sort keeps the promise.
-/
import Mathlib

namespace KernelBasecamp.Lib

universe u

variable {α : Type u}

structure SortedDown (key : α → Int) (l l' : List α) : Prop where
  perm : l'.Perm l
  sorted : l'.Pairwise fun a b => key b ≤ key a
  stable : ∀ k, l'.filter (fun a => key a = k) = l.filter fun a => key a = k

/-- A change of the elements that leaves their keys alone. -/
theorem SortedDown.map {key : α → Int} {l l' : List α} (h : SortedDown key l l') {f : α → α}
    (hf : ∀ a, key (f a) = key a) : SortedDown key (l.map f) (l'.map f) := by
  refine ⟨h.perm.map f, ?_, fun k => ?_⟩
  · rw [List.pairwise_map]
    exact h.sorted.imp fun hab => by rwa [hf, hf]
  · have hcomp : ((fun a => decide (key a = k)) ∘ f) = fun a => decide (key a = k) := by
      funext a
      rw [Function.comp_apply, hf]
    rw [List.filter_map, List.filter_map, hcomp, h.stable k]

section

variable {k₁ k₂ : α → Int} {l l₁ l₂ : List α}

/-- Two sorts in a row: the second key first, the first key among equals. -/
theorem SortedDown.lex (h₁ : SortedDown k₁ l l₁) (h₂ : SortedDown k₂ l₁ l₂) :
    l₂.Pairwise fun a b => k₂ b < k₂ a ∨ k₂ b = k₂ a ∧ k₁ b ≤ k₁ a := by
  rw [List.pairwise_iff_forall_sublist]
  intro a b hab
  have hle : k₂ b ≤ k₂ a := List.pairwise_iff_forall_sublist.mp h₂.sorted hab
  rcases Int.lt_or_eq_of_le hle with hlt | heq
  · exact Or.inl hlt
  -- a tie: both are in the part of `l₂` that the second sort has taken over from `l₁`
  · have hclass : [a, b].filter (fun c => k₂ c = k₂ a) = [a, b] := by simp [heq]
    have hsub := hab.filter fun c => k₂ c = k₂ a
    rw [hclass, h₂.stable] at hsub
    have hsub₁ : [a, b].Sublist l₁ := hsub.trans List.filter_sublist
    exact Or.inr ⟨heq, List.pairwise_iff_forall_sublist.mp h₁.sorted hsub₁⟩

theorem SortedDown.filter_lex (h₁ : SortedDown k₁ l l₁) (h₂ : SortedDown k₂ l₁ l₂) (x y : Int) :
    l₂.filter (fun a => k₂ a = x ∧ k₁ a = y) = l.filter fun a => k₂ a = x ∧ k₁ a = y := by
  have hsplit : ∀ m : List α, m.filter (fun a => k₂ a = x ∧ k₁ a = y) =
      (m.filter fun a => k₁ a = y).filter fun a => k₂ a = x := by
    intro m
    rw [List.filter_filter]
    simp only [Bool.decide_and]
  have hswap : ∀ m : List α, m.filter (fun a => k₂ a = x ∧ k₁ a = y) =
      (m.filter fun a => k₂ a = x).filter fun a => k₁ a = y := by
    intro m
    rw [List.filter_filter]
    simp only [Bool.decide_and, Bool.and_comm]
  rw [hswap l₂, h₂.stable x, ← hswap l₁, hsplit l₁, h₁.stable y, ← hsplit l]

end

/-! ## Sorting by a comparison -/

/-- A three-way comparison that orders the elements of `l`. -/
structure Consistent (cmp : α → α → Int) (l : List α) : Prop where
  neg_iff : ∀ a ∈ l, ∀ b ∈ l, cmp a b < 0 ↔ 0 < cmp b a
  trans : ∀ a ∈ l, ∀ b ∈ l, ∀ c ∈ l, cmp a b ≤ 0 → cmp b c ≤ 0 → cmp a c ≤ 0

/-- A stable sort, smallest first, for every comparison that is consistent on the list. -/
structure StableSorting (sort : (α → α → Int) → List α → List α) : Prop where
  perm : ∀ cmp l, Consistent cmp l → (sort cmp l).Perm l
  sorted : ∀ cmp l, Consistent cmp l → (sort cmp l).Pairwise fun a b => cmp a b ≤ 0
  stable : ∀ cmp l, Consistent cmp l → ∀ a ∈ l,
    (sort cmp l).filter (fun b => cmp a b = 0) = l.filter fun b => cmp a b = 0

/-- `cmp` compares keys on `l`, the larger one first. -/
structure ComparesDown (cmp : α → α → Int) (key : α → Int) (l : List α) : Prop where
  neg_iff : ∀ a ∈ l, ∀ b ∈ l, cmp a b < 0 ↔ key b < key a
  pos_iff : ∀ a ∈ l, ∀ b ∈ l, 0 < cmp a b ↔ key a < key b

section

variable {cmp : α → α → Int} {key : α → Int} {l : List α}

theorem ComparesDown.le_iff (h : ComparesDown cmp key l) {a b : α} (ha : a ∈ l) (hb : b ∈ l) :
    cmp a b ≤ 0 ↔ key b ≤ key a := by
  rw [← Int.not_lt, h.pos_iff a ha b hb, Int.not_lt]

theorem ComparesDown.eq_iff (h : ComparesDown cmp key l) {a b : α} (ha : a ∈ l) (hb : b ∈ l) :
    cmp a b = 0 ↔ key b = key a := by
  have hneg := h.neg_iff a ha b hb
  have hpos := h.pos_iff a ha b hb
  omega

theorem ComparesDown.consistent (h : ComparesDown cmp key l) : Consistent cmp l := by
  refine ⟨fun a ha b hb => ?_, fun a ha b hb c hc hab hbc => ?_⟩
  · rw [h.neg_iff a ha b hb, h.pos_iff b hb a ha]
  · rw [h.le_iff ha hb] at hab
    rw [h.le_iff hb hc] at hbc
    rw [h.le_iff ha hc]
    exact Int.le_trans hbc hab

theorem StableSorting.sortedDown {sort : (α → α → Int) → List α → List α}
    (hsort : StableSorting sort) (h : ComparesDown cmp key l) :
    SortedDown key l (sort cmp l) := by
  have hperm := hsort.perm cmp l h.consistent
  refine ⟨hperm, ?_, fun k => ?_⟩
  · refine (hsort.sorted cmp l h.consistent).imp_of_mem fun ha hb hab => ?_
    exact (h.le_iff (hperm.subset ha) (hperm.subset hb)).mp hab
  · by_cases hk : ∃ a ∈ l, key a = k
    · obtain ⟨a, ha, rfl⟩ := hk
      have hclass : ∀ m : List α, m ⊆ l →
          m.filter (fun b => key b = key a) = m.filter fun b => cmp a b = 0 := by
        intro m hm
        refine List.filter_congr fun b hb => ?_
        exact decide_eq_decide.mpr (h.eq_iff ha (hm hb)).symm
      rw [hclass _ hperm.subset, hclass l (List.Subset.refl l),
        hsort.stable cmp l h.consistent a ha]
    · have hnone : ∀ m : List α, m ⊆ l → m.filter (fun b => decide (key b = k)) = [] := by
        intro m hm
        rw [List.filter_eq_nil_iff]
        intro b hb hkb
        exact hk ⟨b, hm hb, of_decide_eq_true hkb⟩
      rw [hnone _ hperm.subset, hnone l (List.Subset.refl l)]

end

/-! ## Merge sort -/

section

variable {cmp : α → α → Int} {l : List α}

/-- The merge sort of `l`, as one of the elements with their membership: there the comparison
    is consistent throughout. -/
theorem map_mergeSort_attach (cmp : α → α → Int) (l : List α) :
    (l.attach.mergeSort fun a b => decide (cmp a b ≤ 0)).map Subtype.val =
      l.mergeSort fun a b => decide (cmp a b ≤ 0) := by
  rw [List.map_mergeSort (s := fun a b => decide (cmp a b ≤ 0)) fun a _ b _ => rfl,
    List.attach_map_subtype_val]

theorem Consistent.trans_attach (h : Consistent cmp l) (a b c : { a // a ∈ l })
    (hab : decide (cmp a b ≤ 0) = true) (hbc : decide (cmp b c ≤ 0) = true) :
    decide (cmp a c ≤ 0) = true := by
  rw [decide_eq_true_iff] at hab hbc ⊢
  exact h.trans a a.2 b b.2 c c.2 hab hbc

theorem Consistent.total_attach (h : Consistent cmp l) (a b : { a // a ∈ l }) :
    (decide (cmp a b ≤ 0) || decide (cmp b a ≤ 0)) = true := by
  have hneg := h.neg_iff b b.2 a a.2
  rw [Bool.or_eq_true, decide_eq_true_iff, decide_eq_true_iff]
  omega

/-- The elements that compare equal to `a` compare equal to each other. -/
theorem Consistent.le_of_eq (h : Consistent cmp l) {a b c : α} (ha : a ∈ l) (hb : b ∈ l)
    (hc : c ∈ l) (hab : cmp a b = 0) (hac : cmp a c = 0) : cmp b c ≤ 0 := by
  have hneg := h.neg_iff a ha b hb
  exact h.trans b hb a ha c hc (by omega) (Int.le_of_eq hac)

theorem stableSorting_mergeSort :
    StableSorting fun (cmp : α → α → Int) l => l.mergeSort fun a b => decide (cmp a b ≤ 0) := by
  refine ⟨fun cmp l _ => List.mergeSort_perm _ _, fun cmp l h => ?_, fun cmp l h a ha => ?_⟩
  · have hsorted := List.pairwise_mergeSort h.trans_attach h.total_attach l.attach
    rw [← map_mergeSort_attach, List.pairwise_map]
    exact hsorted.imp fun hab => of_decide_eq_true hab
  · have hperm : (l.mergeSort fun a b => decide (cmp a b ≤ 0)).Perm l := List.mergeSort_perm _ _
    -- the class of `a` is a sorted sublist, so the sort keeps it
    have hclass : List.Pairwise (fun b c : { a // a ∈ l } => decide (cmp b c ≤ 0) = true)
        (l.attach.filter fun b : { a // a ∈ l } => decide (cmp a b = 0)) := by
      refine List.pairwise_of_forall_mem_list fun b hb c hc => decide_eq_true ?_
      have hab := of_decide_eq_true (List.mem_filter.mp hb).2
      have hac := of_decide_eq_true (List.mem_filter.mp hc).2
      exact h.le_of_eq ha b.2 c.2 hab hac
    have hsub := List.sublist_mergeSort h.trans_attach h.total_attach hclass List.filter_sublist
    have hmap := hsub.map Subtype.val
    have hval : (l.attach.filter fun b : { a // a ∈ l } => decide (cmp a b = 0)).map Subtype.val =
        l.filter fun b => cmp a b = 0 := by
      have hfilter := List.filter_map (f := Subtype.val) (l := l.attach)
        (p := fun b => decide (cmp a b = 0))
      rw [List.attach_map_subtype_val] at hfilter
      exact hfilter.symm
    rw [map_mergeSort_attach, hval] at hmap
    have hkept := hmap.filter fun b => decide (cmp a b = 0)
    rw [List.filter_filter] at hkept
    simp only [Bool.and_self] at hkept
    exact (hkept.eq_of_length (hperm.filter _).length_eq.symm).symm

end

end KernelBasecamp.Lib
