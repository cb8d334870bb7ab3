/-
  Removing paths from a tree.

  A tree is the set of its paths, each the list of names on the way down. `remove` takes a path
  away unless something lies below it; `removeAll` goes through a list of paths. When the list
  is `DepthFirst`, what lies below a path is tried before the path, so a path goes exactly if
  everything at and below it is in the list (`mem_removeAll`), whatever the order is otherwise.
-/
import Mathlib

namespace KernelBasecamp.Lib.PathTree

universe u

variable {α : Type u} [DecidableEq α]

/-- Something lies below the path. -/
def Holds (t : Finset (List α)) (p : List α) : Prop := ∃ q ∈ t, p <+: q ∧ q ≠ p

instance (t : Finset (List α)) (p : List α) : Decidable (Holds t p) :=
  inferInstanceAs (Decidable (∃ q ∈ t, p <+: q ∧ q ≠ p))

def remove (t : Finset (List α)) (p : List α) : Finset (List α) :=
  if Holds t p then t else t.erase p

def removeAll (t : Finset (List α)) (l : List (List α)) : Finset (List α) := l.foldl remove t

/-- No path comes after one that it lies below. -/
def DepthFirst (l : List (List α)) : Prop := l.Pairwise fun p q => ¬ p <+: q

variable {t : Finset (List α)} {l : List (List α)} {a p : List α}

omit [DecidableEq α] in
theorem DepthFirst.filter (h : DepthFirst l) (f : List α → Bool) : DepthFirst (l.filter f) :=
  List.Pairwise.filter f h

/-- One path, with others to follow that do not lie below it. -/
theorem mem_remove (hl : ∀ q ∈ l, ¬ a <+: q) :
    (p ∈ remove t a ∧ ∃ q ∈ remove t a, p <+: q ∧ q ∉ l) ↔
      p ∈ t ∧ ∃ q ∈ t, p <+: q ∧ q ∉ a :: l := by
  unfold remove
  split
  · next hholds =>
      refine and_congr_right fun _ => ⟨?_, ?_⟩
      · rintro ⟨q, hq, hpq, hql⟩
        by_cases hqa : q = a
        · -- what lies below `a` keeps `p` too
          subst hqa
          obtain ⟨r, hr, hqr, hne⟩ := hholds
          refine ⟨r, hr, hpq.trans hqr, ?_⟩
          rw [List.mem_cons, not_or]
          exact ⟨hne, fun hrl => hl r hrl hqr⟩
        · refine ⟨q, hq, hpq, ?_⟩
          rw [List.mem_cons, not_or]
          exact ⟨hqa, hql⟩
      · rintro ⟨q, hq, hpq, hql⟩
        exact ⟨q, hq, hpq, fun h => hql (List.mem_cons_of_mem a h)⟩
  · next hempty =>
      constructor
      · rintro ⟨hp, q, hq, hpq, hql⟩
        obtain ⟨hqa, hq⟩ := Finset.mem_erase.mp hq
        refine ⟨Finset.mem_of_mem_erase hp, q, hq, hpq, ?_⟩
        rw [List.mem_cons, not_or]
        exact ⟨hqa, hql⟩
      · rintro ⟨hp, q, hq, hpq, hql⟩
        rw [List.mem_cons, not_or] at hql
        refine ⟨Finset.mem_erase.mpr ⟨?_, hp⟩, q, Finset.mem_erase.mpr ⟨hql.1, hq⟩, hpq, hql.2⟩
        rintro rfl
        exact hempty ⟨q, hq, hpq, hql.1⟩

/-- What is left are the paths at or below which something has not been tried. -/
theorem mem_removeAll (h : DepthFirst l) :
    p ∈ removeAll t l ↔ p ∈ t ∧ ∃ q ∈ t, p <+: q ∧ q ∉ l := by
  induction l generalizing t with
  | nil =>
      refine ⟨fun hp => ⟨hp, p, hp, List.prefix_rfl, List.not_mem_nil⟩, fun hp => hp.1⟩
  | cons a l ih =>
      obtain ⟨ha, hl⟩ := List.pairwise_cons.mp h
      change p ∈ removeAll (remove t a) l ↔ _
      rw [ih hl, mem_remove ha]

/-- What has not been tried is left. -/
theorem mem_removeAll_of_not_mem (h : DepthFirst l) (hp : p ∈ t) (hpl : p ∉ l) :
    p ∈ removeAll t l :=
  (mem_removeAll h).mpr ⟨hp, p, hp, List.prefix_rfl, hpl⟩

/-- Trying again what has been tried changes nothing. -/
theorem removeAll_again (h : DepthFirst l) {l' : List (List α)} (h' : DepthFirst l')
    (hsub : ∀ q ∈ removeAll t l, q ∈ l' → q ∈ l) :
    removeAll (removeAll t l) l' = removeAll t l := by
  ext p
  rw [mem_removeAll h']
  refine ⟨fun hp => hp.1, fun hp => ⟨hp, ?_⟩⟩
  obtain ⟨-, q, hq, hpq, hql⟩ := (mem_removeAll h).mp hp
  have hleft : q ∈ removeAll t l := mem_removeAll_of_not_mem h hq hql
  exact ⟨q, hleft, hpq, fun hql' => hql (hsub q hleft hql')⟩

end KernelBasecamp.Lib.PathTree
