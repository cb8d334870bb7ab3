/-
  Resources that a program acquires and releases.

  A log lists the acquisitions and releases in order. `holds` replays it: acquiring what is
  held and releasing what is not held are errors. A log is `Balanced` when it replays without
  an error and nothing is held at its end, so that every acquisition has exactly one release.

  `Holding log rs` says that the log replays and leaves just the resources of `rs` held. Its
  rules follow a program from call to call: `Holding.acquire` and `Holding.release` for lists
  of distinct resources, `Holding.congr` to restate the list, `Holding.balanced_iff` at the
  end.
-/
import Mathlib
import KernelBasecamp.Lib.Run

namespace KernelBasecamp.Lib

universe u

inductive Event (ρ : Type u) where
  | acquire (r : ρ)
  | release (r : ρ)
  deriving DecidableEq, Repr

variable {ρ : Type u} [DecidableEq ρ]

/-- What is held after an event. -/
def Event.apply (h : ρ → Bool) : Event ρ → Option (ρ → Bool)
  | .acquire r => if h r then none else some (Function.update h r true)
  | .release r => if h r then some (Function.update h r false) else none

/-- What is held after a log. -/
def holds (log : List (Event ρ)) : Option (ρ → Bool) := run Event.apply (fun _ => false) log

def Balanced (log : List (Event ρ)) : Prop := holds log = some fun _ => false

/-- The log replays, and the resources of `rs` are held at its end. -/
def Holding (log : List (Event ρ)) (rs : List ρ) : Prop :=
  holds log = some fun r => decide (r ∈ rs)

/-! ## Lists of events -/

/-- Distinct resources that nobody holds can be acquired. -/
theorem run_acquire {rs : List ρ} (hrs : rs.Nodup) {h : ρ → Bool} (hfree : ∀ r ∈ rs, h r = false) :
    run Event.apply h (rs.map .acquire) = some fun r => h r || decide (r ∈ rs) := by
  induction rs generalizing h with
  | nil => simp
  | cons r rs ih =>
      obtain ⟨hr, hrs⟩ := List.nodup_cons.mp hrs
      have hstep : Event.apply h (.acquire r) = some (Function.update h r true) := by
        exact if_neg (by rw [hfree r List.mem_cons_self]; exact Bool.false_ne_true)
      have hnext : ∀ q ∈ rs, Function.update h r true q = false := by
        intro q hq
        rw [Function.update_of_ne (fun hqr : q = r => hr (hqr ▸ hq))]
        exact hfree q (List.mem_cons_of_mem r hq)
      rw [List.map_cons, run_cons, hstep, Option.bind_some, ih hrs hnext]
      congr 1
      funext q
      by_cases hq : q = r
      · subst hq
        rw [Function.update_self]
        simp
      · rw [Function.update_of_ne hq]
        simp [hq]

/-- Distinct resources that are held can be released. -/
theorem run_release {rs : List ρ} (hrs : rs.Nodup) {h : ρ → Bool} (hheld : ∀ r ∈ rs, h r = true) :
    run Event.apply h (rs.map .release) = some fun r => h r && !decide (r ∈ rs) := by
  induction rs generalizing h with
  | nil => simp
  | cons r rs ih =>
      obtain ⟨hr, hrs⟩ := List.nodup_cons.mp hrs
      have hstep : Event.apply h (.release r) = some (Function.update h r false) := by
        exact if_pos (hheld r List.mem_cons_self)
      have hnext : ∀ q ∈ rs, Function.update h r false q = true := by
        intro q hq
        rw [Function.update_of_ne (fun hqr : q = r => hr (hqr ▸ hq))]
        exact hheld q (List.mem_cons_of_mem r hq)
      rw [List.map_cons, run_cons, hstep, Option.bind_some, ih hrs hnext]
      congr 1
      funext q
      by_cases hq : q = r
      · subst hq
        rw [Function.update_self]
        simp
      · rw [Function.update_of_ne hq]
        simp [hq]

/-! ## The rules -/

section

variable {log : List (Event ρ)} {rs : List ρ}

theorem Holding.nil : Holding ([] : List (Event ρ)) [] := by
  unfold Holding
  simp only [List.not_mem_nil, decide_false]
  rfl

theorem Holding.congr (h : Holding log rs) {qs : List ρ} (hqs : ∀ r, r ∈ rs ↔ r ∈ qs) :
    Holding log qs := by
  unfold Holding at h ⊢
  rw [h]
  congr 1
  funext r
  exact decide_eq_decide.mpr (hqs r)

theorem Holding.run_append (h : Holding log rs) (more : List (Event ρ)) :
    holds (log ++ more) = run Event.apply (fun r => decide (r ∈ rs)) more := by
  unfold Holding at h
  unfold holds at h ⊢
  rw [Lib.run_append, h, Option.bind_some]

theorem Holding.acquire (h : Holding log rs) {new : List ρ} (hnew : new.Nodup)
    (hfree : ∀ r ∈ new, r ∉ rs) : Holding (log ++ new.map .acquire) (rs ++ new) := by
  unfold Holding
  rw [h.run_append, run_acquire hnew fun r hr => decide_eq_false (hfree r hr)]
  congr 1
  funext r
  rw [← Bool.decide_or]
  exact decide_eq_decide.mpr List.mem_append.symm

theorem Holding.release (h : Holding log rs) {old : List ρ} (hold : old.Nodup)
    (hheld : ∀ r ∈ old, r ∈ rs) :
    Holding (log ++ old.map .release) (rs.filter fun r => decide (r ∉ old)) := by
  unfold Holding
  rw [h.run_append, run_release hold fun r hr => decide_eq_true (hheld r hr)]
  congr 1
  funext r
  rw [← decide_not, ← Bool.decide_and]
  refine decide_eq_decide.mpr ?_
  rw [List.mem_filter, decide_eq_true_iff]

theorem Holding.balanced_iff (h : Holding log rs) : Balanced log ↔ rs = [] := by
  unfold Holding at h
  unfold Balanced
  rw [h, Option.some_inj, List.eq_nil_iff_forall_not_mem]
  constructor
  · intro hrs r
    exact of_decide_eq_false (congrFun hrs r)
  · intro hrs
    funext r
    exact decide_eq_false (hrs r)

end

end KernelBasecamp.Lib
