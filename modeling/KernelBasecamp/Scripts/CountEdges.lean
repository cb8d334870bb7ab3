/-
  The counter of exercise06 (exercise06.sh): the level of a GPIO line is polled, and a counter
  goes up at each rising edge.

  What `cat` prints of the value file is "0", "1" or, when it fails, nothing. `read` gives one
  key or, after its timeout, none. The key "q" ends the loop; without one it goes on, so
  `exercise06` is followed for as many rounds as there are inputs. Setting up the line and
  giving it back are left out.

  `exercise06_counts`: one count for each maximal run of "1" among the samples taken.
-/
import KernelBasecamp.Lib.RunLength

namespace KernelBasecamp.Scripts.CountEdges

open Lib.RunLength

/-- `$new_value` -/
inductive Sample where
  | zero
  | one
  | nothing
  deriving DecidableEq, Repr

/-- A round: the sample and the key that `read` puts into `input`. -/
abbrev Round := Sample × Option Char

structure Meter where
  current_value : Sample
  counter : Nat
  echoed : List Nat
  deriving DecidableEq, Repr

def Meter.start : Meter := ⟨.zero, 0, []⟩

/-- The body of the loop up to `read`. -/
def Meter.sample (m : Meter) (new_value : Sample) : Meter :=
  if new_value = .one ∧ new_value ≠ m.current_value then
    ⟨new_value, m.counter + 1, m.echoed ++ [m.counter + 1]⟩
  else { m with current_value := new_value }

def exercise06 (m : Meter) : List Round → Meter
  | [] => m
  | (new_value, input) :: rounds =>
      let m := m.sample new_value
      if input = some 'q' then m else exercise06 m rounds

/-- The samples taken: those of the rounds up to the first "q". -/
def taken : List Round → List Sample
  | [] => []
  | (new_value, input) :: rounds =>
      new_value :: if input = some 'q' then [] else taken rounds

theorem sample_counter (m : Meter) (new_value : Sample) :
    (m.sample new_value).counter =
      m.counter + if new_value = .one ∧ new_value ≠ m.current_value then 1 else 0 := by
  unfold Meter.sample
  split
  · rfl
  · rfl

theorem sample_current_value (m : Meter) (new_value : Sample) :
    (m.sample new_value).current_value = new_value := by
  unfold Meter.sample
  split
  · rfl
  · rfl

/-- What has been echoed are the numbers up to the counter. -/
theorem sample_echoed {m : Meter} (h : m.echoed = List.range' 1 m.counter) (new_value : Sample) :
    (m.sample new_value).echoed = List.range' 1 (m.sample new_value).counter := by
  unfold Meter.sample
  split
  · dsimp only
    rw [h, List.range'_1_concat, Nat.add_comm 1]
  · exact h

theorem exercise06_rises (rounds : List Round) (m : Meter) :
    (exercise06 m rounds).counter = m.counter + rises .one m.current_value (taken rounds) := by
  induction rounds generalizing m with
  | nil => rfl
  | cons r rounds ih =>
      obtain ⟨new_value, input⟩ := r
      unfold exercise06 taken
      dsimp only
      rw [rises, ← Nat.add_assoc, ← sample_counter]
      split
      · rfl
      · rw [ih, sample_current_value]

theorem exercise06_echoed {m : Meter} (h : m.echoed = List.range' 1 m.counter)
    (rounds : List Round) :
    (exercise06 m rounds).echoed = List.range' 1 (exercise06 m rounds).counter := by
  induction rounds generalizing m with
  | nil => exact h
  | cons r rounds ih =>
      obtain ⟨new_value, input⟩ := r
      unfold exercise06
      dsimp only
      split
      · exact sample_echoed h new_value
      · exact ih (sample_echoed h new_value)

/-- The numbers 1, 2, 3, … are printed, one for each maximal run of "1" among the samples taken,
    one that is there at the start included. -/
theorem exercise06_counts (rounds : List Round) :
    (exercise06 Meter.start rounds).echoed =
      List.range' 1 ((runs (taken rounds)).filter fun r => r.head? = some .one).length := by
  have hcount := exercise06_rises rounds Meter.start
  rw [rises_eq_runs (by decide)] at hcount
  have hechoed := exercise06_echoed (m := Meter.start) rfl rounds
  rw [hcount] at hechoed
  simpa [Meter.start] using hechoed

-- A read that fails cuts a pulse in two.
example : (exercise06 Meter.start [(.one, none), (.nothing, none), (.one, some 'q')]).echoed =
    [1, 2] := by decide

end KernelBasecamp.Scripts.CountEdges
