/-
  A discipline for signals and takers under which every wait returns to a block.

  A worker that has been woken, or that is past the test of `data_list`, will take a block
  without another test: it has reserved one. `Reserving` asks that nobody reserves a block that
  is not there: a signal wakes a waiter, and a worker goes past the test, only while there are
  more blocks than reservations. (After `enabled = 0` nothing is taken and nothing is asked.)

  * `findsWork_of_reserving`: in such a run every wait that returns while `enabled` is set finds
    `data_list` non-empty.
  * `take_nonempty_of_reserving`: so no worker dereferences an empty list.
-/
import KernelBasecamp.Lib.Parties
import KernelBasecamp.Pool.Emptiness

namespace KernelBasecamp.Pool

open KernelBasecamp.Lib

/-- One for the points from which a block is taken without another test. -/
def Pc.reserves : Pc → Nat
  | .woken | .check | .take => 1
  | _ => 0

def reserved (s : State) : Nat := tally Pc.reserves s.pc

/-- A reservation is made only for a block that nobody has reserved. -/
def Reserving (s : State) : Act → Prop
  | .worker w => s.pc w = .test → s.data_list ≠ [] → s.enabled = true →
      reserved s < s.data_list.length
  | .main (some _) => s.enabled = true → reserved s < s.data_list.length
  | _ => True

/-- There is a block for each reservation. -/
def Covered (s : State) : Prop := s.enabled = true → reserved s ≤ s.data_list.length

theorem reserved_move {s s' : State} {w : Worker} {p : Pc}
    (hpc : s'.pc = Function.update s.pc w p) :
    reserved s' + (s.pc w).reserves = reserved s + p.reserves := by
  unfold reserved
  rw [hpc]
  exact tally_update Pc.reserves s.pc w p

/-- A worker moves and reserves nothing new. -/
theorem Covered.move {s s' : State} {w : Worker} {p : Pc} (h : Covered s)
    (hp : p.reserves ≤ (s.pc w).reserves) (hpc : s'.pc = Function.update s.pc w p)
    (hlist : s'.data_list = s.data_list) (hen : s'.enabled = s.enabled) : Covered s' := by
  intro hen'
  have hmove := reserved_move hpc
  have hle := h (hen ▸ hen')
  rw [hlist]
  omega

/-- A worker moves and reserves a block that nobody has reserved. -/
theorem Covered.reserve {s s' : State} {w : Worker} {p : Pc}
    (hfree : s.enabled = true → reserved s < s.data_list.length) (hp : p.reserves = 1)
    (hpc : s'.pc = Function.update s.pc w p) (hlist : s'.data_list = s.data_list)
    (hen : s'.enabled = s.enabled) : Covered s' := by
  intro hen'
  have hmove := reserved_move hpc
  have hlt := hfree (hen ▸ hen')
  rw [hlist]
  omega

theorem Covered.step {s s' : State} {a : Act} (h : Covered s) (hC : Reserving s a)
    (hs : Step s a s') : Covered s' := by
  cases hs with
  | enter w | leave w | lock w | wait w | giveUp w | round w | finish w | put w | space w
  | next w | abandon w => exact h.move (w := w) (Nat.zero_le _) rfl rfl rfl
  | pass w hpc hne => exact Covered.reserve (w := w) (hC hpc hne) rfl rfl rfl rfl
  | relock w hpc | check w hpc =>
      refine h.move (w := w) ?_ rfl rfl rfl
      rw [hpc]
      exact Nat.le_refl 1
  | take w b rest hpc hlist =>
      -- the block taken was reserved by the worker that takes it
      intro hen
      have hmove : reserved ({ s with
          mutex := none, data_list := rest, taken := s.taken ++ [(w, b)] }.goto w (.outer b 0)) +
          (s.pc w).reserves = reserved s + (Pc.outer b 0).reserves := reserved_move rfl
      have hle := h hen
      rw [hpc] at hmove
      rw [hlist, List.length_cons] at hle
      change reserved _ + 1 = reserved s + 0 at hmove
      change reserved _ ≤ rest.length
      omega
  | append o d hmain =>
      intro hen
      have hle := h hen
      change reserved s ≤ (s.data_list ++ [d]).length
      rw [List.length_append]
      omega
  | wake v next hpc hmain => exact Covered.reserve (w := v) hC rfl rfl rfl rfl
  | disable => exact fun hen => nomatch hen
  | create | appendLock | lost | quit | signalled | join => exact h

theorem covered_init : Covered State.init := by
  intro _
  decide

/-- In a run in which nobody reserves a block that is not there, every wait that returns while
    `enabled` is set finds `data_list` non-empty. -/
theorem findsWork_of_reserving {acts : List Act}
    (h : AllSteps step Reserving State.init acts) : AllSteps step FindsWork State.init acts := by
  refine allSteps_imp Covered (fun s a s' hI hC hs => hI.step hC (step_cases hs)) ?_ covered_init h
  rintro s a hI - w rfl hpc hen hnil
  have hle := hI hen
  have hone := le_tally Pc.reserves s.pc w
  rw [hpc] at hone
  change 1 ≤ reserved s at hone
  rw [hnil] at hle
  exact absurd (hone.trans hle) (by decide)

theorem take_nonempty_of_reserving {acts : List Act} {s : State} {w : Worker}
    (h : AllSteps step Reserving State.init acts) (hrun : run step State.init acts = some s)
    (hen : s.enabled = true) (hpc : s.pc w = .take) : s.data_list ≠ [] := by
  have hinv : Exclusive s ∧ Stocked s := by
    refine exclusive_stocked_run (findsWork_of_reserving h) hrun
  refine hinv.2 hen w ?_
  rw [hpc]
  rfl

end KernelBasecamp.Pool
