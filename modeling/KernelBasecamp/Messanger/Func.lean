/-
  The thread of a message, `func`, and when its loop ends.

  The environment of the loop is what its condition finds each time it is evaluated: that the
  thread is asked to stop, or else the clock. The list of these may end before the loop does;
  the function has then not returned. `ktime_t` is a signed number of nanoseconds, and its
  quotient is compared with `m->total` as such a number. The counter `i`, which nothing reads, is
  left out.

  The readings that let the loop go on lie between the start and `total` milliseconds later, and
  are `delay` apart (`loop_span`), so there are at most `total / delay + 1` of them.
-/
import Mathlib
import KernelBasecamp.Messanger.Store

namespace KernelBasecamp.Messanger

open Lib.CInt

/-- `printk(KERN_INFO "M: %s", m->text)` after the clock was read as `now`. -/
structure Print where
  now : Int
  text : List UInt8
  deriving DecidableEq, Repr

/-- `returned` is the record once `func` has returned. -/
structure Outcome where
  prints : List Print
  returned : Option Message
  deriving DecidableEq, Repr

/-- `(now - s) / 1000000`. -/
def elapsed (s now : Int) : Int := (wrap 64 (now - s)).tdiv 1000000

/-- `func` after the clock was first read as `s`: the loop and what follows it. In the list,
    `none` is a request to stop. -/
def func (m : Message) (s : Int) : List (Option Int) → Outcome
  | [] => ⟨[], none⟩
  | none :: _ => ⟨[], some { m with task := .null }⟩
  | some now :: tests =>
      if elapsed s now ≤ m.total.toNat then
        let rest := func m s tests
        ⟨⟨now, m.text⟩ :: rest.prints, rest.returned⟩
      else ⟨[], some { m with task := .null }⟩

/-- The readings of the loop, in their order. -/
def readings (tests : List (Option Int)) : List Int := tests.filterMap id

/-- A clock that never runs backwards, and is advanced by every `msleep(m->delay)`. -/
structure Clock (m : Message) (s : Int) (tests : List (Option Int)) : Prop where
  start_nonneg : 0 ≤ s
  in_range : ∀ now ∈ readings tests, s ≤ now ∧ now < 2 ^ 63
  slept : List.IsChain (fun now next : Int => now + m.delay.toNat * 1000000 ≤ next) (readings tests)

variable {m : Message} {s : Int}

theorem elapsed_eq {now : Int} (hs : 0 ≤ s) (hle : s ≤ now) (hlt : now < 2 ^ 63) :
    elapsed s now = (now - s) / 1000000 := by
  have hrange : InRange 64 (now - s) := by
    unfold InRange
    omega
  unfold elapsed
  rw [wrap_of_inRange (by decide) hrange, Int.tdiv_eq_ediv_of_nonneg (by omega)]

theorem func_going {now : Int} (h : elapsed s now ≤ m.total.toNat) (tests : List (Option Int)) :
    func m s (some now :: tests) =
      ⟨⟨now, m.text⟩ :: (func m s tests).prints, (func m s tests).returned⟩ := by
  rw [func, if_pos h]

theorem func_late {now : Int} (h : ¬ elapsed s now ≤ m.total.toNat) (tests : List (Option Int)) :
    func m s (some now :: tests) = ⟨[], some { m with task := .null }⟩ := by
  rw [func, if_neg h]

theorem Clock.tail {test : Option Int} {tests : List (Option Int)}
    (h : Clock m s (test :: tests)) : Clock m s tests := by
  cases test with
  | none => exact ⟨h.start_nonneg, h.in_range, h.slept⟩
  | some now =>
      exact ⟨h.start_nonneg, fun t ht => h.in_range t (List.mem_cons_of_mem now ht),
        h.slept.of_cons⟩

/-- The readings after which the text is printed are not more than `total` milliseconds after the
    start. -/
theorem prints_elapsed {tests : List (Option Int)} (h : Clock m s tests) :
    ∀ p ∈ (func m s tests).prints,
      p.text = m.text ∧ (p.now - s) / 1000000 ≤ m.total.toNat := by
  induction tests with
  | nil => exact fun p hp => absurd hp List.not_mem_nil
  | cons test tests ih =>
      intro p hp
      cases test with
      | none => exact absurd hp List.not_mem_nil
      | some now =>
          have hnow := h.in_range now List.mem_cons_self
          by_cases hle : elapsed s now ≤ m.total.toNat
          · rw [func_going hle] at hp
            rcases List.mem_cons.mp hp with rfl | hp
            · exact ⟨rfl, elapsed_eq h.start_nonneg hnow.1 hnow.2 ▸ hle⟩
            · exact ih h.tail p hp
          · rw [func_late hle] at hp
            exact absurd hp List.not_mem_nil

/-- Either the loop has ended, or every test of its condition was followed by a print. -/
theorem func_returned (tests : List (Option Int)) :
    (func m s tests).returned = some { m with task := .null } ∨
      (func m s tests).prints.length = tests.length := by
  induction tests with
  | nil => exact .inr rfl
  | cons test tests ih =>
      cases test with
      | none => exact .inl rfl
      | some now =>
          by_cases hle : elapsed s now ≤ m.total.toNat
          · rw [func_going hle]
            exact ih.imp_right fun hall => congrArg Nat.succ hall
          · rw [func_late hle]
            exact .inl rfl

/-- From the first printing reading to the last there are at most `total` milliseconds. -/
theorem loop_span {tests : List (Option Int)} (h : Clock m s tests) {lo : Int}
    (hlo : ∀ now ∈ (readings tests).head?, lo ≤ now) :
    (func m s tests).prints = [] ∨
      lo + ((func m s tests).prints.length - 1) * (m.delay.toNat * 1000000) <
        s + (m.total.toNat + 1) * 1000000 := by
  induction tests generalizing lo with
  | nil => exact .inl rfl
  | cons test tests ih =>
      cases test with
      | none => exact .inl rfl
      | some now =>
          by_cases hle : elapsed s now ≤ m.total.toNat
          · have hnow := h.in_range now List.mem_cons_self
            have hfirst := hlo now rfl
            -- the next reading is at least a delay later
            obtain ⟨hsleep, -⟩ := List.isChain_cons.mp h.slept
            rw [func_going hle, List.length_cons, Int.natCast_succ, Int.add_sub_cancel]
            rw [elapsed_eq h.start_nonneg hnow.1 hnow.2] at hle
            right
            rcases ih h.tail hsleep with hnil | hspan
            · rw [hnil, List.length_nil]
              omega
            · rw [Int.sub_mul, Int.one_mul] at hspan
              omega
          · rw [func_late hle]
            exact .inl rfl

/-- The loop of a message ends after at most `total / delay + 1` prints, asked to stop or not,
    and none of them is more than `total` whole milliseconds after the start. -/
theorem func_on_time {tests : List (Option Int)} (hdelay : 1 ≤ m.delay.toNat)
    (h : Clock m s tests) :
    (func m s tests).prints.length ≤ m.total.toNat / m.delay.toNat + 1 ∧
    (m.total.toNat / m.delay.toNat + 2 ≤ tests.length →
      (func m s tests).returned = some { m with task := .null }) ∧
    ∀ p ∈ (func m s tests).prints,
      p.text = m.text ∧ (p.now - s) / 1000000 ≤ m.total.toNat := by
  have hcount : (func m s tests).prints.length ≤ m.total.toNat / m.delay.toNat + 1 := by
    have hstart : ∀ now ∈ (readings tests).head?, s ≤ now :=
      fun now hnow => (h.in_range now (List.mem_of_mem_head? hnow)).1
    rcases loop_span h hstart with hnil | hspan
    · rw [hnil]
      exact Nat.zero_le _
    · have hmul : ((func m s tests).prints.length - 1 : Int) * m.delay.toNat ≤ m.total.toNat := by
        rw [← Int.mul_assoc] at hspan
        omega
      have hdiv := (Int.le_ediv_iff_mul_le (by omega)).mpr hmul
      omega
  refine ⟨hcount, fun hlong => ?_, prints_elapsed h⟩
  rcases func_returned tests with hreturned | hall
  · exact hreturned
  · omega

/-- The message `250 2000 "**"` of the test, with a clock that is late by a second once. -/
def stars : Message := ⟨250, 2000, [42, 42], .handle 0⟩

theorem func_on_time_stars : (func stars 0
    [some 5000, some 250005000, some 1500000000, some 1750000000, some 2000999999,
      some 2251000000]).prints.length ≤ 2000 / 250 + 1 :=
  (func_on_time (m := stars) (by decide) ⟨by decide, by decide, by decide⟩).1

end KernelBasecamp.Messanger
