/-
  Finitely many parties, each at a point of its program.

  `tally f at_` adds up `f` over the points at which the parties stand. With `f` the indicator
  of a set of points it counts the parties there, at most one each (`tally_le_card`).
  `tally_update` says what the move of one party does to it.
-/
import Mathlib

namespace KernelBasecamp.Lib

universe u v

variable {ι : Type u} {β : Type v} [Fintype ι] (f : β → Nat)

def tally (g : ι → β) : Nat := ∑ i, f (g i)

theorem le_tally (g : ι → β) (i : ι) : f (g i) ≤ tally f g :=
  Finset.single_le_sum (f := fun i => f (g i)) (fun _ _ => Nat.zero_le _) (Finset.mem_univ i)

theorem tally_le_card (hf : ∀ b, f b ≤ 1) (g : ι → β) : tally f g ≤ Fintype.card ι := by
  have h := Finset.sum_le_card_nsmul Finset.univ (fun i => f (g i)) 1 fun i _ => hf (g i)
  rw [smul_eq_mul, Nat.mul_one] at h
  exact h

theorem exists_of_tally_pos {g : ι → β} (h : 0 < tally f g) : ∃ i, 0 < f (g i) := by
  obtain ⟨i, -, hi⟩ := Finset.sum_pos_iff.mp h
  exact ⟨i, hi⟩

/-- A party moves to `b`. -/
theorem tally_update [DecidableEq ι] (g : ι → β) (i : ι) (b : β) :
    tally f (Function.update g i b) + f (g i) = tally f g + f b := by
  unfold tally
  have hmoved : ∑ j, f (Function.update g i b j) = ∑ j, Function.update (f ∘ g) i (f b) j := by
    refine Finset.sum_congr rfl fun j _ => ?_
    exact Function.apply_update (fun _ => f) g i b j
  have hsplit : f (g i) + _ = ∑ j, f (g j) :=
    Finset.add_sum_erase Finset.univ (f ∘ g) (Finset.mem_univ i)
  rw [hmoved, Finset.sum_update_of_mem (Finset.mem_univ i), Finset.sdiff_singleton_eq_erase,
    ← hsplit]
  omega

end KernelBasecamp.Lib
