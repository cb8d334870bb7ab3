/-
  The thread pool does not lose a wake-up, does not deadlock and always comes to rest.

  Every step but a line of input brings the pool closer to rest (`Step.weight_lt`), so without
  further input all its runs end, however the threads are scheduled. While `enabled` is set a
  worker that waits has not missed a block: the blocks in `data_list` are not more than the
  workers on their way to them and the signal that is still to come (`Attended`).

  * `pool_rests`: how a run without input can end.
-/
import KernelBasecamp.Pool.Conservation
import KernelBasecamp.Pool.Emptiness
import KernelBasecamp.Pool.Shutdown

namespace KernelBasecamp.Pool

open KernelBasecamp.Lib

/-! ## The way to rest -/

/-- The steps from the test of the outer loop to the next test of `enabled`, and those of the way
    from there into the wait. -/
def Block.weight (b : Block) (i : Nat) : Nat :=
  6 + (b.number_of_blocks - i) * (2 * b.block_length + 2)

def Pc.weight : Pc → Nat
  | .exited => 0
  | .waiting => 0
  | .take => 1
  | .check => 2
  | .test => 3
  | .woken => 3
  | .lock => 4
  | .loop => 5
  | .outer b i => b.weight i
  | .inner b i j => b.weight (i + 1) + 1 + 2 * (b.block_length - j)
  | .slept b i j => b.weight (i + 1) + 2 + 2 * (b.block_length - (j + 1))

/-- A signal costs what the worker it wakes has to go. -/
def MainPc.weight : MainPc → Nat
  | .input => 0
  | .appendSignal => 4
  | .appendBody d => d.weight 0 + 5
  | .appendLock d => d.weight 0 + 6
  | .joins i => THREAD_COUNT - i
  | .signals i => (THREAD_COUNT - i) * 4 + 5
  | .disable => 22

def State.weight (s : State) : Nat :=
  tally Pc.weight s.pc + (s.data_list.map fun b => b.weight 0).sum + s.main.weight

/-- A line of input. -/
def Act.isInput : Act → Bool
  | .append .. => true
  | .quit => true
  | _ => false

theorem Block.weight_round (b : Block) {i : Nat} (hi : i < b.number_of_blocks) :
    b.weight i = b.weight (i + 1) + (2 * b.block_length + 2) := by
  unfold Block.weight
  have hleft : b.number_of_blocks - i = b.number_of_blocks - (i + 1) + 1 := by omega
  rw [hleft, Nat.succ_mul]
  omega

theorem tally_move {s s' : State} {w : Worker} {p : Pc} (f : Pc → Nat)
    (hpc : s'.pc = Function.update s.pc w p) :
    tally f s'.pc + f (s.pc w) = tally f s.pc + f p := by
  rw [hpc]
  exact tally_update f s.pc w p

/-- A worker moves closer to rest and leaves the rest alone. -/
theorem weight_move {s s' : State} {w : Worker} {p q : Pc} (hpc : s.pc w = q)
    (hpc' : s'.pc = Function.update s.pc w p) (hlist : s'.data_list = s.data_list)
    (hmain : s'.main = s.main) (hlt : p.weight < q.weight) : s'.weight < s.weight := by
  have hmove := tally_move Pc.weight hpc'
  rw [hpc] at hmove
  unfold State.weight
  rw [hlist, hmain]
  omega

/-- The main thread moves on. -/
theorem weight_main {s s' : State} (hpc : s'.pc = s.pc) (hlist : s'.data_list = s.data_list)
    (hlt : s'.main.weight < s.main.weight) : s'.weight < s.weight := by
  unfold State.weight
  rw [hlist, hpc]
  omega

theorem Step.weight_lt {s s' : State} {a : Act} (hs : Step s a s') (ha : a.isInput = false) :
    s'.weight < s.weight := by
  cases hs with
  | enter w hpc | leave w hpc | lock w hpc | wait w hpc | pass w hpc | relock w hpc | check w hpc
  | giveUp w hpc => exact weight_move hpc rfl rfl rfl (by decide)
  | take w b rest hpc hlist =>
      have hmove := tally_update Pc.weight s.pc w (.outer b 0)
      rw [hpc] at hmove
      change _ + 1 = _ + b.weight 0 at hmove
      change tally Pc.weight (Function.update s.pc w (.outer b 0)) +
        (rest.map fun b => b.weight 0).sum + s.main.weight < _
      unfold State.weight
      rw [hlist, List.map_cons, List.sum_cons]
      omega
  | round w b i hpc hi =>
      refine weight_move hpc rfl rfl rfl ?_
      have hround := b.weight_round hi
      change b.weight (i + 1) + 1 + 2 * (b.block_length - 0) < b.weight i
      omega
  | finish w b i hpc =>
      refine weight_move hpc rfl rfl rfl ?_
      change 5 < 6 + _
      omega
  | put w b i j hpc hj =>
      refine weight_move hpc rfl rfl rfl ?_
      change b.weight (i + 1) + 2 + 2 * (b.block_length - (j + 1)) <
        b.weight (i + 1) + 1 + 2 * (b.block_length - j)
      omega
  | space w b i j hpc =>
      refine weight_move hpc rfl rfl rfl ?_
      change b.weight (i + 1) < b.weight (i + 1) + 1 + 2 * (b.block_length - j)
      omega
  | next w b i j hpc =>
      refine weight_move hpc rfl rfl rfl ?_
      change b.weight (i + 1) + 1 + 2 * (b.block_length - (j + 1)) <
        b.weight (i + 1) + 2 + 2 * (b.block_length - (j + 1))
      omega
  | abandon w b i j hpc =>
      refine weight_move hpc rfl rfl rfl ?_
      change 0 < b.weight (i + 1) + 2 + _
      omega
  | create => cases ha
  | quit => cases ha
  | appendLock o d hmain =>
      refine weight_main rfl rfl ?_
      rw [hmain]
      exact Nat.lt_succ_self _
  | append o d hmain =>
      unfold State.weight
      dsimp only
      rw [hmain, List.map_append, List.sum_append, List.map_singleton, List.sum_singleton]
      change _ + 4 < _ + (d.weight 0 + 5)
      omega
  | wake v next hpc hmain =>
      have hmove := tally_update Pc.weight s.pc v .woken
      rw [hpc] at hmove
      change _ + 0 = _ + 3 at hmove
      have hnext : next.weight + 3 < s.main.weight := by
        rcases hmain with ⟨hm, rfl⟩ | ⟨i, hi, hm, rfl⟩
        · rw [hm]
          decide
        · rw [hm]
          change (THREAD_COUNT - (i + 1)) * 4 + 5 + 3 < (THREAD_COUNT - i) * 4 + 5
          omega
      unfold State.weight
      change tally Pc.weight (Function.update s.pc v .woken) + _ + next.weight < _
      dsimp only [State.goto]
      omega
  | lost next hpc hmain =>
      refine weight_main rfl rfl ?_
      rcases hmain with ⟨hm, rfl⟩ | ⟨i, hi, hm, rfl⟩
      · rw [hm]
        exact Nat.zero_lt_succ 3
      · rw [hm]
        change (THREAD_COUNT - (i + 1)) * 4 + 5 < (THREAD_COUNT - i) * 4 + 5
        omega
  | disable o hmain =>
      refine weight_main rfl rfl ?_
      rw [hmain]
      exact Nat.lt_succ_self 21
  | signalled o i hi hmain =>
      refine weight_main rfl rfl ?_
      rw [hmain]
      change 4 < (THREAD_COUNT - i) * 4 + 5
      omega
  | join o i hi hmain =>
      refine weight_main rfl rfl ?_
      rw [hmain]
      change THREAD_COUNT - (i + 1) < THREAD_COUNT - i
      omega

/-! ## No wake-up is lost -/

/-- One for the points from which a worker goes on to take a block. -/
def Pc.serves : Pc → Nat
  | .woken | .check | .take => 1
  | _ => 0

def MainPc.owes : MainPc → Nat
  | .appendSignal => 1
  | _ => 0

/-- While `enabled` is set and a worker waits, each block in `data_list` has a worker on its way
    or a signal that is still to come. -/
def Attended (s : State) : Prop :=
  s.enabled = true → (∃ v, s.pc v = .waiting) →
    s.data_list.length ≤ tally Pc.serves s.pc + s.main.owes

/-- A worker that does not begin to wait moves and leaves `data_list` alone. -/
theorem Attended.move {s s' : State} {w : Worker} {p : Pc} (h : Attended s)
    (hp : (s.pc w).serves ≤ p.serves) (hwait : p ≠ .waiting)
    (hpc : s'.pc = Function.update s.pc w p) (hlist : s'.data_list = s.data_list)
    (hmain : s'.main = s.main) (hen : s'.enabled = s.enabled) : Attended s' := by
  intro hen' ⟨v, hv⟩
  have hmove := tally_move Pc.serves hpc
  have hold : s.pc v = .waiting := by
    rw [hpc] at hv
    by_cases hvw : v = w
    · subst hvw
      rw [Function.update_self] at hv
      exact absurd hv hwait
    · rwa [Function.update_of_ne hvw] at hv
  have hle := h (hen ▸ hen') ⟨v, hold⟩
  rw [hlist, hmain]
  omega

/-- The main thread moves and owes no less. -/
theorem Attended.main {s s' : State} (h : Attended s) (hpc : s'.pc = s.pc)
    (hlist : s'.data_list = s.data_list) (howes : s.main.owes ≤ s'.main.owes)
    (hen : s'.enabled = s.enabled) : Attended s' := by
  intro hen' hwait
  rw [hpc] at hwait ⊢
  have hle := h (hen ▸ hen') hwait
  rw [hlist]
  omega

theorem attended_step {s s' : State} {a : Act} (h : Attended s) (hs : Step s a s') :
    Attended s' := by
  cases hs with
  | enter w hpc | leave w hpc | lock w hpc | pass w hpc | round w _ _ hpc | finish w _ _ hpc
  | put w _ _ _ hpc | space w _ _ _ hpc | next w _ _ _ hpc | abandon w _ _ _ hpc =>
      refine h.move (w := w) ?_ (by intro hp; cases hp) rfl rfl rfl rfl
      rw [hpc]
      exact Nat.zero_le _
  | relock w hpc | check w hpc =>
      refine h.move (w := w) ?_ (by intro hp; cases hp) rfl rfl rfl rfl
      rw [hpc]
      exact Nat.le_refl 1
  | wait w hpc hnil =>
      intro _ _
      change s.data_list.length ≤ _
      rw [hnil]
      exact Nat.zero_le _
  | giveUp w hpc hen =>
      intro hen'
      change s.enabled = true at hen'
      rw [hen] at hen'
      cases hen'
  | take w b rest hpc hlist =>
      -- one worker and one block less
      intro hen ⟨v, hv⟩
      have hmove := tally_update Pc.serves s.pc w (.outer b 0)
      rw [hpc] at hmove
      change _ + 1 = _ + 0 at hmove
      have hold : s.pc v = .waiting := by
        rw [goto_pc] at hv
        by_cases hvw : v = w
        · subst hvw
          rw [Function.update_self] at hv
          cases hv
        · rwa [Function.update_of_ne hvw] at hv
      have hle := h hen ⟨v, hold⟩
      rw [hlist, List.length_cons] at hle
      change rest.length ≤ tally Pc.serves (Function.update s.pc w (.outer b 0)) + s.main.owes
      omega
  | append o d hmain =>
      -- the signal for the new block is still to come
      intro hen hwait
      have hle := h hen hwait
      rw [hmain] at hle
      change _ ≤ _ + 0 at hle
      change (s.data_list ++ [d]).length ≤ tally Pc.serves s.pc + 1
      rw [List.length_append, List.length_singleton]
      omega
  | wake v next hpc hmain =>
      -- the signal becomes a worker on its way
      intro hen _
      have hmove := tally_update Pc.serves s.pc v .woken
      rw [hpc] at hmove
      change _ + 0 = _ + 1 at hmove
      have hle := h hen ⟨v, hpc⟩
      have howes : s.main.owes ≤ next.owes + 1 := by
        rcases hmain with ⟨hm, rfl⟩ | ⟨i, -, hm, rfl⟩
        · rw [hm]
          exact Nat.le_refl 1
        · rw [hm]
          exact Nat.zero_le _
      change s.data_list.length ≤ tally Pc.serves (Function.update s.pc v .woken) + next.owes
      omega
  | lost next hpc => exact fun _ ⟨v, hv⟩ => absurd hv (hpc v)
  | disable => exact fun hen => nomatch hen
  | create _ _ _ hmain | appendLock _ _ hmain | quit hmain | signalled _ _ _ hmain
  | join _ _ _ hmain =>
      refine h.main rfl rfl ?_ rfl
      rw [hmain]
      exact Nat.zero_le _

/-! ## Who has the mutex, and how far the shutdown is -/

/-- The points of the main thread before `enabled = 0`. -/
def MainPc.before : MainPc → Bool
  | .signals _ | .joins _ => false
  | _ => true

structure Orderly (s : State) : Prop where
  worker : ∀ w, s.mutex = some (.worker w) → (s.pc w).locked = true
  main : s.mutex = some .main → ∃ d, s.main = .appendBody d
  enabled : s.enabled = s.main.before
  exited : ∀ w, s.pc w = .exited → s.enabled = false
  joined : ∀ i, s.main = .joins i → i ≤ THREAD_COUNT ∧ ∀ w : Worker, w.val < i → s.pc w = .exited

namespace Orderly

variable {s s' : State} {w : Worker} {p : Pc}

theorem init : Orderly State.init where
  worker _ h := nomatch h
  main h := nomatch h
  enabled := rfl
  exited _ h := nomatch h
  joined _ h := nomatch h

/-- A worker that is not at its end moves; whoever has the mutex next is inside. -/
theorem move (h : Orderly s) (hpc : s'.pc = Function.update s.pc w p)
    (hold : s.pc w ≠ .exited) (hexit : p = .exited → s.enabled = false)
    (hmain : s'.main = s.main) (hen : s'.enabled = s.enabled)
    (hmutex : s'.mutex = none ∨ (s'.mutex = some (.worker w) ∧ p.locked = true) ∨
      (s'.mutex = s.mutex ∧ ((s.pc w).locked = true → p.locked = true))) : Orderly s' := by
  refine ⟨fun v hv => ?_, fun hm => ?_, ?_, fun v hv => ?_, fun i hi => ?_⟩
  · rw [hpc]
    rcases hmutex with hnone | ⟨hself, hp⟩ | ⟨hsame, hp⟩
    · rw [hnone] at hv
      cases hv
    · rw [hself] at hv
      cases hv
      rwa [Function.update_self]
    · have hlocked := h.worker v (hsame ▸ hv)
      by_cases hvw : v = w
      · subst hvw
        rw [Function.update_self]
        exact hp hlocked
      · rwa [Function.update_of_ne hvw]
  · rw [hmain]
    rcases hmutex with hnone | ⟨hself, -⟩ | ⟨hsame, -⟩
    · rw [hnone] at hm
      cases hm
    · rw [hself] at hm
      cases hm
    · exact h.main (hsame ▸ hm)
  · rw [hen, hmain]
    exact h.enabled
  · rw [hen]
    rw [hpc] at hv
    by_cases hvw : v = w
    · subst hvw
      rw [Function.update_self] at hv
      exact hexit hv
    · rw [Function.update_of_ne hvw] at hv
      exact h.exited v hv
  · obtain ⟨hle, hall⟩ := h.joined i (hmain ▸ hi)
    refine ⟨hle, fun v hv => ?_⟩
    have hexited := hall v hv
    by_cases hvw : v = w
    · exact absurd (hvw ▸ hexited) hold
    · rwa [hpc, Function.update_of_ne hvw]

/-- The main thread moves to a point before the joins, and does not have the mutex. -/
theorem advance (h : Orderly s) (hpc : s'.pc = s.pc) (hmutex : s'.mutex = s.mutex)
    (hold : ∀ d, s.main ≠ .appendBody d) (hen : s'.enabled = s'.main.before)
    (hexit : s'.enabled = true → s.enabled = true) (hjoins : ∀ i, s'.main ≠ .joins i) :
    Orderly s' := by
  refine ⟨fun v hv => ?_, fun hm => ?_, hen, fun v hv => ?_, fun i hi => absurd hi (hjoins i)⟩
  · rw [hpc]
    exact h.worker v (hmutex ▸ hv)
  · obtain ⟨d, hd⟩ := h.main (hmutex ▸ hm)
    exact absurd hd (hold d)
  · have hoff := h.exited v (hpc ▸ hv)
    by_contra hon
    rw [hexit (by simpa using hon)] at hoff
    cases hoff

theorem step {a : Act} (h : Orderly s) (hs : Step s a s') : Orderly s' := by
  cases hs with
  | enter w hpc | round w _ _ hpc | finish w _ _ hpc | put w _ _ _ hpc | space w _ _ _ hpc
  | next w _ _ _ hpc =>
      refine h.move rfl ?_ (by intro hp; cases hp) rfl rfl (.inr (.inr ⟨rfl, ?_⟩)) <;> rw [hpc]
      · intro hp
        cases hp
      · intro hp
        cases hp
  | leave w hpc hen | abandon w _ _ _ hpc hen =>
      refine h.move rfl ?_ (fun _ => hen) rfl rfl (.inr (.inr ⟨rfl, ?_⟩)) <;> rw [hpc]
      · intro hp
        cases hp
      · intro hp
        cases hp
  | pass w hpc | check w hpc =>
      refine h.move rfl ?_ (by intro hp; cases hp) rfl rfl (.inr (.inr ⟨rfl, fun _ => rfl⟩))
      rw [hpc]
      intro hp
      cases hp
  | lock w hpc | relock w hpc =>
      refine h.move rfl ?_ (by intro hp; cases hp) rfl rfl (.inr (.inl ⟨rfl, rfl⟩))
      rw [hpc]
      intro hp
      cases hp
  | wait w hpc | take w _ _ hpc =>
      refine h.move rfl ?_ (by intro hp; cases hp) rfl rfl (.inl rfl)
      rw [hpc]
      intro hp
      cases hp
  | giveUp w hpc hen =>
      refine h.move rfl ?_ (fun _ => hen) rfl rfl (.inl rfl)
      rw [hpc]
      intro hp
      cases hp
  | create _ _ _ hmain | quit hmain =>
      have hen := h.enabled
      rw [hmain] at hen
      refine h.advance rfl rfl ?_ hen id ?_
      · rw [hmain]
        intro d hd
        cases hd
      · intro i hi
        cases hi
  | appendLock o d hmain hfree =>
      have hen := h.enabled
      rw [hmain] at hen
      exact ⟨fun v hv => (nomatch hv), fun _ => ⟨d, rfl⟩, hen, h.exited, fun i hi => nomatch hi⟩
  | append o d hmain =>
      have hen := h.enabled
      rw [hmain] at hen
      refine ⟨fun v hv => (nomatch hv), fun hm => (nomatch hm), hen, h.exited, fun i hi => ?_⟩
      cases hi
  | wake v next hpc hmain =>
      have hmoved : Orderly { s with main := next } := by
        have hen := h.enabled
        rcases hmain with ⟨hm, rfl⟩ | ⟨i, -, hm, rfl⟩ <;> rw [hm] at hen
        · exact h.advance rfl rfl (by simp [hm]) hen id (by simp)
        · exact h.advance rfl rfl (by simp [hm]) hen id (by simp)
      have hwaits : ({ s with main := next } : State).pc v = .waiting := hpc
      refine hmoved.move rfl ?_ (by intro hp; cases hp) rfl rfl (.inr (.inr ⟨rfl, ?_⟩)) <;>
        rw [hwaits]
      · intro hp
        cases hp
      · intro hp
        cases hp
  | lost next hpc hmain =>
      have hen := h.enabled
      rcases hmain with ⟨hm, rfl⟩ | ⟨i, -, hm, rfl⟩ <;> rw [hm] at hen
      · exact h.advance rfl rfl (by simp [hm]) hen id (by simp)
      · exact h.advance rfl rfl (by simp [hm]) hen id (by simp)
  | disable o hmain =>
      exact h.advance rfl rfl (by simp [hmain]) rfl (fun hen => nomatch hen) (by simp)
  | signalled o i hi hmain =>
      have hen := h.enabled
      rw [hmain] at hen
      refine ⟨h.worker, fun hm => ?_, hen, h.exited, fun j hj => ?_⟩
      · obtain ⟨d, hd⟩ := h.main hm
        rw [hmain] at hd
        cases hd
      · cases hj
        exact ⟨Nat.zero_le _, fun w hw => absurd hw (Nat.not_lt_zero _)⟩
  | join o i hi hmain hpc =>
      have hen := h.enabled
      rw [hmain] at hen
      refine ⟨h.worker, fun hm => ?_, hen, h.exited, fun j hj => ?_⟩
      · obtain ⟨d, hd⟩ := h.main hm
        rw [hmain] at hd
        cases hd
      · cases hj
        refine ⟨hi, fun w hw => ?_⟩
        by_cases hwi : w.val = i
        · rw [show w = ⟨i, hi⟩ from Fin.ext hwi]
          exact hpc
        · exact (h.joined i hmain).2 w (by omega)

end Orderly

/-! ## Rest -/

/-- No thread can move without further input. -/
def Resting (s : State) : Prop := (∀ w, runner s w = none) ∧ ∀ o, mainStep s o = none

/-- A worker is about to dereference an empty list. -/
def Crashing (s : State) : Prop := ∃ w, s.pc w = .take ∧ s.data_list = []

/-- All work is done and everybody waits for more. -/
def Idle (s : State) : Prop :=
  s.enabled = true ∧ s.main = .input ∧ (∀ w, s.pc w = .waiting) ∧
    (s.finished.map Prod.snd).Perm s.appended

/-- The shutdown has come to its end, or waits for the exit of a worker that still waits; the
    blocks that are not finished are in `data_list` or abandoned. -/
def Closed (s : State) : Prop :=
  s.enabled = false ∧ (∀ w, s.pc w = .waiting ∨ s.pc w = .exited) ∧
    (s.main = .joins THREAD_COUNT ↔ ∀ w, s.pc w = .exited) ∧
    (s.data_list ++ (s.finished.map Prod.snd ++ s.abandoned.map Prod.snd)).Perm s.appended

/-- Why a worker cannot move. -/
theorem runner_none {s : State} {w : Worker} (h : runner s w = none) :
    s.pc w = .waiting ∨ s.pc w = .exited ∨
      ((s.pc w).locked = false ∧ s.mutex ≠ none) ∨ (s.pc w = .take ∧ s.data_list = []) := by
  unfold runner at h
  split at h
  case h_2 hpc | h_5 hpc =>
    split at h
    · cases h
    · next hbusy => exact .inr (.inr (.inl ⟨by rw [hpc]; rfl, hbusy⟩))
  case h_4 hpc => exact .inl hpc
  case h_7 hpc =>
    split at h
    · next hnil => exact .inr (.inr (.inr ⟨hpc, hnil⟩))
    · cases h
  case h_11 hpc => exact .inr (.inl hpc)
  case h_1 | h_3 | h_6 | h_8 | h_9 | h_10 => split at h <;> cases h

/-- A signal can always be given. -/
theorem cond_signal_some (s : State) (next : MainPc) :
    ∃ o, cond_signal s next o ≠ none := by
  by_cases hw : ∃ v, s.pc v = .waiting
  · obtain ⟨v, hv⟩ := hw
    refine ⟨some v, ?_⟩
    unfold cond_signal
    dsimp only
    rw [if_pos hv]
    exact Option.some_ne_none _
  · push Not at hw
    refine ⟨none, ?_⟩
    unfold cond_signal
    dsimp only
    rw [if_pos hw]
    exact Option.some_ne_none _

/-- Why the main thread cannot move. -/
theorem mainStep_none {s : State} (h : ∀ o, mainStep s o = none) :
    s.main = .input ∨ ((∃ d, s.main = .appendLock d) ∧ s.mutex ≠ none) ∨
      ∃ i, s.main = .joins i ∧ ∀ hi : i < THREAD_COUNT, s.pc ⟨i, hi⟩ ≠ .exited := by
  unfold mainStep at h
  cases hmain : s.main with
  | input => exact .inl rfl
  | appendLock d =>
      refine .inr (.inl ⟨⟨d, rfl⟩, fun hfree => ?_⟩)
      have hnone := h none
      rw [hmain] at hnone
      dsimp only at hnone
      rw [if_pos hfree] at hnone
      cases hnone
  | appendBody d =>
      have hnone := h none
      rw [hmain] at hnone
      cases hnone
  | appendSignal =>
      obtain ⟨o, ho⟩ := cond_signal_some s .input
      have hnone := h o
      rw [hmain] at hnone
      exact absurd hnone ho
  | disable =>
      have hnone := h none
      rw [hmain] at hnone
      cases hnone
  | signals i =>
      obtain ⟨o, ho⟩ := cond_signal_some s (.signals (i + 1))
      have hnone := h o
      rw [hmain] at hnone
      dsimp only at hnone
      split at hnone
      · exact absurd hnone ho
      · cases hnone
  | joins i =>
      refine .inr (.inr ⟨i, rfl, fun hi hexit => ?_⟩)
      have hnone := h none
      rw [hmain] at hnone
      dsimp only at hnone
      rw [dif_pos hi, if_pos hexit] at hnone
      cases hnone

/-- Nobody at rest has the mutex, unless somebody is about to crash. -/
theorem mutex_of_resting {s : State} (h : Orderly s) (hrest : Resting s)
    (hcrash : ¬ Crashing s) : s.mutex = none := by
  by_contra hbusy
  obtain ⟨party, hparty⟩ := Option.ne_none_iff_exists'.mp hbusy
  cases party with
  | main =>
      obtain ⟨d, hd⟩ := h.main hparty
      rcases mainStep_none hrest.2 with hm | ⟨⟨d', hm⟩, -⟩ | ⟨i, hm, -⟩ <;>
        rw [hd] at hm <;> cases hm
  | worker w =>
      have hlocked := h.worker w hparty
      rcases runner_none (hrest.1 w) with hpc | hpc | ⟨hpc, -⟩ | hpc
      · rw [hpc] at hlocked
        cases hlocked
      · rw [hpc] at hlocked
        cases hlocked
      · rw [hpc] at hlocked
        cases hlocked
      · exact hcrash ⟨w, hpc⟩

/-- Where the workers are at rest. -/
theorem workers_of_resting {s : State} (h : Orderly s) (hrest : Resting s)
    (hcrash : ¬ Crashing s) (w : Worker) : s.pc w = .waiting ∨ s.pc w = .exited := by
  rcases runner_none (hrest.1 w) with hpc | hpc | ⟨-, hbusy⟩ | hpc
  · exact .inl hpc
  · exact .inr hpc
  · exact absurd (mutex_of_resting h hrest hcrash) hbusy
  · exact absurd ⟨w, hpc⟩ hcrash

/-- At rest nobody holds a block. -/
theorem blocks_of_resting {s : State} (h : Conserved s)
    (hpc : ∀ w, s.pc w = .waiting ∨ s.pc w = .exited) :
    (s.data_list ++ (s.finished.map Prod.snd ++ s.abandoned.map Prod.snd)).Perm s.appended := by
  have hheld : ∀ w, s.ledger.held w = none := by
    intro w
    rcases hpc w with hw | hw <;> exact ledger_held hw
  have hfates : ∀ f : Fate, f ∈ [Fate.finished, .abandoned] := by intro f; cases f <;> simp
  have hperm := h.good.at_rest hheld (by decide) hfates
  simpa [State.ledger, State.settled] using hperm

theorem idle_of_resting {s : State} (ho : Orderly s) (hc : Conserved s) (ha : Attended s)
    (hpc : ∀ w, s.pc w = .waiting ∨ s.pc w = .exited) (hmain : s.main = .input) : Idle s := by
  have hen : s.enabled = true := by
    rw [ho.enabled, hmain]
    rfl
  have hwait : ∀ w, s.pc w = .waiting := by
    intro w
    refine (hpc w).resolve_right fun hexit => ?_
    rw [ho.exited w hexit] at hen
    cases hen
  have hserves : tally Pc.serves s.pc = 0 := by
    unfold tally
    refine Finset.sum_eq_zero fun w _ => ?_
    rw [hwait w]
    rfl
  have hnil : s.data_list = [] := by
    have hle := ha hen ⟨0, hwait 0⟩
    rw [hserves, hmain] at hle
    exact List.eq_nil_of_length_eq_zero (Nat.le_zero.mp hle)
  have hblocks := blocks_of_resting hc hpc
  rw [hnil, hc.quiet hen, List.map_nil, List.append_nil, List.nil_append] at hblocks
  exact ⟨hen, hmain, hwait, hblocks⟩

theorem closed_of_resting {s : State} (ho : Orderly s) (hc : Conserved s)
    (hpc : ∀ w, s.pc w = .waiting ∨ s.pc w = .exited) {i : Nat} (hmain : s.main = .joins i)
    (hstuck : ∀ hi : i < THREAD_COUNT, s.pc ⟨i, hi⟩ ≠ .exited) : Closed s := by
  obtain ⟨hle, hexited⟩ := ho.joined i hmain
  refine ⟨?_, hpc, ?_, blocks_of_resting hc hpc⟩
  · rw [ho.enabled, hmain]
    rfl
  · constructor
    · intro hend w
      rw [hmain] at hend
      cases hend
      exact hexited w w.isLt
    · intro hall
      rcases Nat.lt_or_ge i THREAD_COUNT with hi | hi
      · exact absurd (hall ⟨i, hi⟩) (hstuck hi)
      · rw [hmain, Nat.le_antisymm hle hi]

theorem progress_invariants {acts : List Act} {s : State}
    (hrun : run step State.init acts = some s) : Orderly s ∧ Conserved s ∧ Attended s := by
  refine run_invariant (fun s => Orderly s ∧ Conserved s ∧ Attended s)
    ⟨Orderly.init, conserved_init, fun _ ⟨v, hv⟩ => nomatch hv⟩ ?_ hrun
  intro m a m' ⟨ho, hc, ha⟩ hm
  have hstep := step_cases hm
  exact ⟨ho.step hstep, conserved_step hc hm, attended_step ha hstep⟩

/-- From every state reached, however the threads are scheduled, the pool comes to rest unless
    there is further input: a run without input is no longer than the weight of its first state.
    And it rests only where a worker is about to dereference an empty list, or everybody waits
    and all blocks are finished, or the shutdown has come as far as it can. -/
theorem pool_rests {acts : List Act} {s : State} (hrun : run step State.init acts = some s) :
    (∀ more s', (∀ a ∈ more, a.isInput = false) → run step s more = some s' →
      more.length + s'.weight ≤ s.weight) ∧
    (Resting s → Crashing s ∨ Idle s ∨ Closed s) := by
  obtain ⟨ho, hc, ha⟩ := progress_invariants hrun
  constructor
  · intro more s' hquiet hmore
    refine run_length_le State.weight ?_ (allSteps_of_forall s hquiet) hmore
    intro m a m' hquiet hm
    exact (step_cases hm).weight_lt hquiet
  · intro hrest
    by_cases hcrash : Crashing s
    · exact .inl hcrash
    · have hpc := workers_of_resting ho hrest hcrash
      rcases mainStep_none hrest.2 with hmain | ⟨-, hbusy⟩ | ⟨i, hmain, hstuck⟩
      · exact .inr (.inl (idle_of_resting ho hc ha hpc hmain))
      · exact absurd (mutex_of_resting ho hrest hcrash) hbusy
      · exact .inr (.inr (closed_of_resting ho hc hpc hmain hstuck))

/-- All workers wait; a block is appended, worker 1 is woken and types it. -/
def typedActs : List Act :=
  [.worker 0, .worker 0, .worker 0, .worker 1, .worker 1, .worker 1, .worker 2, .worker 2,
   .worker 2, .worker 3, .worker 3, .worker 3, .append 97 1 1, .main none, .main none,
   .main (some 1), .worker 1, .worker 1, .worker 1, .worker 1, .worker 1, .worker 1, .worker 1,
   .worker 1, .worker 1, .worker 1, .worker 1]

instance (s : State) : Decidable (Crashing s) :=
  inferInstanceAs (Decidable (∃ w, s.pc w = .take ∧ s.data_list = []))

theorem pool_rests_typed : ∃ s, run step State.init typedActs = some s ∧ Idle s ∧
    s.finished = [(1, ⟨0, 97, 1, 1⟩)] := by
  obtain ⟨s, hs⟩ := Option.isSome_iff_exists.mp
    (by decide : (run step State.init typedActs).isSome = true)
  have hat : (run step State.init typedActs).map (fun s =>
      (s.enabled, s.main, s.finished, decide (∀ w, (runner s w).isNone), decide (Crashing s))) =
      some (true, .input, [(1, ⟨0, 97, 1, 1⟩)], true, false) := by decide
  rw [hs, Option.map_some, Option.some.injEq, Prod.mk.injEq, Prod.mk.injEq, Prod.mk.injEq,
    Prod.mk.injEq] at hat
  obtain ⟨hen, hmain, hfinished, hnone, hcrash⟩ := hat
  have hrest : Resting s := by
    refine ⟨fun w => Option.isNone_iff_eq_none.mp (of_decide_eq_true hnone w), fun o => ?_⟩
    unfold mainStep
    rw [hmain]
  rcases (pool_rests hs).2 hrest with hbad | hidle | ⟨hoff, -⟩
  · exact absurd hbad (of_decide_eq_false hcrash)
  · exact ⟨s, hs, hidle, hfinished⟩
  · rw [hen] at hoff
    cases hoff

end KernelBasecamp.Pool
