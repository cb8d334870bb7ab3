/-
  Runs of a machine given by a partial step function `step : σ → ι → Option σ`.

  An input `i : ι` is whatever decides the step: the call made, the party that moves, the
  answer of the environment. `step s i = none` says that the step is not possible in `s` (or
  that the program faults there). A run is a list of inputs.

  * `run_induct`: the induction rule for properties that relate a state to the inputs so far,
    for the runs whose steps all meet a condition (`AllSteps`).
  * `run_invariant`: the same for a property of states alone, over every run.
  * `allSteps_iff`: two conditions on the steps of a run that come to the same.
  * `allSteps_of_end`: from the end of a run back to its steps.
  * `run_length_le`: a run whose steps all lower a measure is no longer than the measure.
  * `run_rel`: two machines run side by side on inputs that are related one by one.
-/
import Mathlib

namespace KernelBasecamp.Lib

universe u v w x

variable {σ : Type u} {ι : Type v} {step : σ → ι → Option σ}

/-- The state after a list of inputs; `none` once a step is not possible. -/
def run (step : σ → ι → Option σ) : σ → List ι → Option σ
  | s, [] => some s
  | s, i :: is => (step s i).bind fun s' => run step s' is

@[simp] theorem run_nil (s : σ) : run step s [] = some s := rfl

theorem run_cons (s : σ) (i : ι) (is : List ι) :
    run step s (i :: is) = (step s i).bind fun s' => run step s' is := rfl

theorem run_append (s : σ) (is js : List ι) :
    run step s (is ++ js) = (run step s is).bind fun s' => run step s' js := by
  induction is generalizing s with
  | nil => rfl
  | cons i is ih =>
      rw [List.cons_append, run_cons, run_cons]
      cases step s i with
      | none => rfl
      | some s' => exact ih s'

theorem run_concat (s : σ) (is : List ι) (i : ι) :
    run step s (is ++ [i]) = (run step s is).bind fun s' => step s' i := by
  rw [run_append]
  congr 1
  funext s'
  rw [run_cons]
  cases step s' i <;> rfl

/-- Every step taken from `s` over the inputs starts in a state that meets `C` with its
    input. -/
def AllSteps (step : σ → ι → Option σ) (C : σ → ι → Prop) : σ → List ι → Prop
  | _, [] => True
  | s, i :: is => C s i ∧ ∀ s', step s i = some s' → AllSteps step C s' is

instance AllSteps.decidable {C : σ → ι → Prop} [∀ s i, Decidable (C s i)] :
    ∀ s is, Decidable (AllSteps step C s is)
  | _, [] => isTrue trivial
  | s, i :: is =>
      match h : step s i with
      | none => decidable_of_iff (C s i)
          ⟨fun hC => ⟨hC, fun s' hs => by rw [h] at hs; cases hs⟩, And.left⟩
      | some m =>
          have := AllSteps.decidable (C := C) m is
          decidable_of_iff (C s i ∧ AllSteps step C m is)
            ⟨fun hC => ⟨hC.1, fun s' hs => by rw [h] at hs; cases hs; exact hC.2⟩,
              fun hC => ⟨hC.1, hC.2 m h⟩⟩

theorem allSteps_true (s : σ) (is : List ι) : AllSteps step (fun _ _ => True) s is := by
  induction is generalizing s with
  | nil => trivial
  | cons i is ih => exact ⟨trivial, fun s' _ => ih s'⟩

/-- A condition on the inputs alone. -/
theorem allSteps_of_forall {C : ι → Prop} (s : σ) {is : List ι} (h : ∀ i ∈ is, C i) :
    AllSteps step (fun _ => C) s is := by
  induction is generalizing s with
  | nil => trivial
  | cons i is ih =>
      exact ⟨h i List.mem_cons_self, fun s' _ => ih s' fun j hj => h j (List.mem_cons_of_mem i hj)⟩

theorem allSteps_append {C : σ → ι → Prop} {s : σ} {is js : List ι}
    (h : AllSteps step C s (is ++ js)) :
    AllSteps step C s is ∧ ∀ s', run step s is = some s' → AllSteps step C s' js := by
  induction is generalizing s with
  | nil =>
      refine ⟨trivial, fun s' hs => ?_⟩
      cases hs
      exact h
  | cons i is ih =>
      obtain ⟨hC, hrest⟩ := h
      refine ⟨⟨hC, fun s' hs => (ih (hrest s' hs)).1⟩, fun s' hs => ?_⟩
      rw [run_cons] at hs
      obtain ⟨m, hm, hs⟩ := Option.bind_eq_some_iff.mp hs
      exact (ih (hrest m hm)).2 s' hs

/-- Induction over the runs from `s₀` whose steps meet `C`: `P` relates the inputs so far to
    the state they lead to. -/
theorem run_induct {C : σ → ι → Prop} {s₀ : σ} (P : List ι → σ → Prop) (hinit : P [] s₀)
    (hstep : ∀ is s i s', P is s → C s i → step s i = some s' → P (is ++ [i]) s')
    {is : List ι} {s : σ} (hC : AllSteps step C s₀ is) (hrun : run step s₀ is = some s) :
    P is s := by
  induction is using List.reverseRecOn generalizing s with
  | nil => cases hrun; exact hinit
  | append_singleton is i ih =>
      obtain ⟨hpre, hlast⟩ := allSteps_append hC
      rw [run_concat] at hrun
      obtain ⟨m, hm, hi⟩ := Option.bind_eq_some_iff.mp hrun
      exact hstep is m i s (ih hpre hm) (hlast m hm).1 hi

/-- A condition that implies another in the states that meet an invariant. -/
theorem allSteps_imp {C D : σ → ι → Prop} (I : σ → Prop)
    (hinv : ∀ s i s', I s → C s i → step s i = some s' → I s')
    (himp : ∀ s i, I s → C s i → D s i) {s : σ} {is : List ι} (hs : I s)
    (h : AllSteps step C s is) : AllSteps step D s is := by
  induction is generalizing s with
  | nil => trivial
  | cons i is ih =>
      exact ⟨himp s i hs h.1, fun s' hi => ih (hinv s i s' hs h.1 hi) (h.2 s' hi)⟩

/-- Two conditions that agree on the steps taken in the states that meet an invariant, which
    the steps that meet them keep. -/
theorem allSteps_iff {C D : σ → ι → Prop} (I : σ → Prop)
    (hinv : ∀ s i s', I s → C s i → step s i = some s' → I s')
    (hiff : ∀ s i s', I s → step s i = some s' → (C s i ↔ D s i)) {s e : σ} {is : List ι}
    (hs : I s) (hrun : run step s is = some e) :
    AllSteps step C s is ↔ AllSteps step D s is := by
  induction is generalizing s with
  | nil => exact Iff.rfl
  | cons i is ih =>
      obtain ⟨m, hm, hrun⟩ := Option.bind_eq_some_iff.mp hrun
      change (C s i ∧ _) ↔ (D s i ∧ _)
      rw [← hiff s i m hs hm]
      refine and_congr_right fun hC => forall_congr' fun s' => forall_congr' fun hs' => ?_
      rw [hm] at hs'
      cases hs'
      exact ih (hinv s i m hs hC hm) hrun

/-- A property of the initial state that every step keeps holds in every state reached. -/
theorem run_invariant {s₀ : σ} (I : σ → Prop) (hinit : I s₀)
    (hstep : ∀ s i s', I s → step s i = some s' → I s') {is : List ι} {s : σ}
    (hrun : run step s₀ is = some s) : I s :=
  run_induct (C := fun _ _ => True) (fun _ s => I s) hinit
    (fun _ s i s' hI _ hs => hstep s i s' hI hs) (allSteps_true s₀ is) hrun

/-- What a run tells about its steps: if a step that misses `C` leads to a bad state, and bad
    states stay bad, then a run that ends in a state that is not bad has met `C` throughout. -/
theorem allSteps_of_end {C : σ → ι → Prop} (I Bad : σ → Prop)
    (hinv : ∀ s i s', I s → step s i = some s' → I s')
    (hbad : ∀ s i s', I s → ¬ C s i → step s i = some s' → Bad s')
    (hstable : ∀ s i s', I s → Bad s → step s i = some s' → Bad s')
    {is : List ι} {s e : σ} (hs : I s) (hrun : run step s is = some e) (hend : ¬ Bad e) :
    AllSteps step C s is := by
  have hlast : ∀ (is : List ι) (s : σ), I s → Bad s → run step s is = some e → Bad e := by
    intro is
    induction is with
    | nil =>
        intro s _ hb hrun
        cases hrun
        exact hb
    | cons i is ih =>
        intro s hs hb hrun
        obtain ⟨m, hm, hrun⟩ := Option.bind_eq_some_iff.mp hrun
        exact ih m (hinv s i m hs hm) (hstable s i m hs hb hm) hrun
  induction is generalizing s with
  | nil => trivial
  | cons i is ih =>
      obtain ⟨m, hm, hrun⟩ := Option.bind_eq_some_iff.mp hrun
      refine ⟨?_, fun s' hs' => ?_⟩
      · by_contra hC
        exact hend (hlast is m (hinv s i m hs hm) (hbad s i m hs hC hm) hrun)
      · rw [hm] at hs'
        cases hs'
        exact ih (hinv s i m hs hm) hrun

/-- A run is no longer than a measure that each of its steps lowers, less what is left of it. -/
theorem run_length_le {C : σ → ι → Prop} (f : σ → ℕ)
    (hlt : ∀ s i s', C s i → step s i = some s' → f s' < f s) {s e : σ} {is : List ι}
    (hC : AllSteps step C s is) (hrun : run step s is = some e) : is.length + f e ≤ f s := by
  induction is generalizing s with
  | nil =>
      cases hrun
      rw [List.length_nil, Nat.zero_add]
  | cons i is ih =>
      obtain ⟨m, hm, hrun⟩ := Option.bind_eq_some_iff.mp hrun
      have hstep := hlt s i m hC.1 hm
      have hrest := ih (hC.2 m hm) hrun
      rw [List.length_cons]
      omega

/-- Two machines on inputs related one by one: a relation that every pair of steps keeps
    relates the two final states. -/
theorem run_rel {τ : Type w} {κ : Type x} {step₂ : τ → κ → Option τ} (R : σ → τ → Prop)
    (Q : ι → κ → Prop) {C : σ → ι → Prop} {D : τ → κ → Prop}
    (hstep : ∀ s t i j s' t', R s t → Q i j → C s i → D t j → step s i = some s' →
      step₂ t j = some t' → R s' t')
    {is : List ι} {js : List κ} (hQ : List.Forall₂ Q is js) {s s' : σ} {t t' : τ}
    (hR : R s t) (hC : AllSteps step C s is) (hD : AllSteps step₂ D t js)
    (hs : run step s is = some s') (ht : run step₂ t js = some t') : R s' t' := by
  induction hQ generalizing s t with
  | nil => cases hs; cases ht; exact hR
  | cons hij _ ih =>
      rw [run_cons] at hs ht
      obtain ⟨m, hm, hs⟩ := Option.bind_eq_some_iff.mp hs
      obtain ⟨n, hn, ht⟩ := Option.bind_eq_some_iff.mp ht
      exact ih (hstep _ _ _ _ _ _ hR hij hC.1 hD.1 hm hn) (hC.2 m hm) (hD.2 n hn) hs ht

end KernelBasecamp.Lib
