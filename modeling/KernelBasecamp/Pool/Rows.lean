/-
  What the workers of the thread pool write on their rows of the screen.

  A worker that has finished some blocks and holds another one has typed the patterns of the
  former and a prefix of the pattern of the latter, which its loop counters determine
  (`Pc.progress`). The invariant is about one worker at a time (`RowGood`); a step of another
  party leaves it alone, whatever the order of the steps.

  * `rows_run`: while `enabled` is set, the characters on a row are at the columns 0, 1, 2, ..
    and are those of the patterns, `aux[w].p` is their number, and no worker writes on the row of
    another.
-/
import KernelBasecamp.Pool.Conservation

namespace KernelBasecamp.Pool

open KernelBasecamp.Lib

/-! ## Patterns -/

/-- What the first `i` rounds of the outer `for` type. -/
def Block.rounds (b : Block) (i : Nat) : List UInt8 :=
  (List.replicate i (List.replicate b.block_length b.c ++ [32])).flatten

/-- What a whole block types. -/
def Block.pattern (b : Block) : List UInt8 := b.rounds b.number_of_blocks

/-- What a worker has typed of the block it holds. -/
def Pc.progress : Pc → List UInt8
  | .outer b i => b.rounds i
  | .inner b i j => b.rounds i ++ List.replicate j b.c
  | .slept b i j => b.rounds i ++ List.replicate (j + 1) b.c
  | _ => []

/-- The loop counters are in their ranges. -/
def Pc.InRange : Pc → Prop
  | .outer b i => i ≤ b.number_of_blocks
  | .inner b i j => i < b.number_of_blocks ∧ j ≤ b.block_length
  | .slept b i j => i < b.number_of_blocks ∧ j < b.block_length
  | _ => True

theorem Block.rounds_succ (b : Block) (i : Nat) :
    b.rounds (i + 1) = b.rounds i ++ List.replicate b.block_length b.c ++ [32] := by
  unfold Block.rounds
  rw [List.replicate_succ', List.flatten_concat, List.append_assoc]

theorem Block.rounds_prefix (b : Block) {i n : Nat} (h : i ≤ n) : b.rounds i <+: b.rounds n := by
  obtain ⟨k, rfl⟩ := Nat.exists_eq_add_of_le h
  unfold Block.rounds
  rw [← List.replicate_append_replicate, List.flatten_append]
  exact List.prefix_append _ _

/-- A part of one more round. -/
theorem Block.part_prefix (b : Block) {i j : Nat} (hi : i < b.number_of_blocks)
    (hj : j ≤ b.block_length) : b.rounds i ++ List.replicate j b.c <+: b.pattern := by
  refine List.IsPrefix.trans ?_ (b.rounds_prefix (show i + 1 ≤ b.number_of_blocks from hi))
  obtain ⟨k, hk⟩ := Nat.exists_eq_add_of_le hj
  rw [b.rounds_succ, hk, ← List.replicate_append_replicate, List.append_assoc, List.append_assoc,
    ← List.append_assoc]
  exact List.prefix_append _ _

/-- The progress is a prefix of the pattern of the block held, if one is. -/
theorem Pc.progress_prefix {p : Pc} (h : p.InRange) :
    p.progress <+: (p.held.map Block.pattern).getD [] := by
  cases p with
  | outer b i => exact b.rounds_prefix h
  | inner b i j => exact b.part_prefix h.1 h.2
  | slept b i j => exact b.part_prefix h.1 h.2
  | _ => exact List.prefix_refl []

/-! ## One row -/

/-- The entries of the screen on the row of a worker. -/
def State.row (s : State) (w : Worker) : List (Nat × Nat × UInt8) :=
  s.screen.filter fun e => e.1 = w.val

/-- The blocks of a worker in a list of blocks with their workers. -/
def blocksOf (w : Worker) (l : List (Worker × Block)) : List Block :=
  (l.filter fun x => x.1 = w).map Prod.snd

/-- What a worker has typed so far. -/
def State.typed (s : State) (w : Worker) : List UInt8 :=
  (blocksOf w s.finished).flatMap Block.pattern ++ (s.pc w).progress

/-- A text on a row, from the first column on. -/
def layOut (w : Worker) (text : List UInt8) : List (Nat × Nat × UInt8) :=
  text.mapIdx fun k c => (w.val, k, c)

structure RowGood (s : State) (w : Worker) : Prop where
  range : (s.pc w).InRange
  row : s.row w = layOut w (s.typed w)
  column : s.column w = (s.typed w).length
  order : blocksOf w s.taken = blocksOf w s.finished ++ (s.pc w).held.toList

theorem layOut_concat (w : Worker) (text : List UInt8) (c : UInt8) :
    layOut w (text ++ [c]) = layOut w text ++ [(w.val, text.length, c)] :=
  List.mapIdx_concat

theorem layOut_columns (w : Worker) (text : List UInt8) :
    (layOut w text).map (fun e => e.2.1) = List.range text.length :=
  List.ext_getElem (by simp [layOut]) fun k _ _ => by simp [layOut]

theorem layOut_characters (w : Worker) (text : List UInt8) :
    (layOut w text).map (fun e => e.2.2) = text :=
  List.ext_getElem (by simp [layOut]) fun k _ _ => by simp [layOut]

theorem blocksOf_concat_self (w : Worker) (l : List (Worker × Block)) (b : Block) :
    blocksOf w (l ++ [(w, b)]) = blocksOf w l ++ [b] := by
  simp [blocksOf]

theorem blocksOf_concat_other {v w : Worker} (h : w ≠ v) (l : List (Worker × Block)) (b : Block) :
    blocksOf v (l ++ [(w, b)]) = blocksOf v l := by
  simp [blocksOf, h]

/-- A state that looks the same to a worker. -/
theorem RowGood.congr {s s' : State} {v : Worker} (h : RowGood s v) (hpc : s'.pc v = s.pc v)
    (hrow : s'.row v = s.row v) (hcolumn : s'.column v = s.column v)
    (htaken : blocksOf v s'.taken = blocksOf v s.taken)
    (hfinished : blocksOf v s'.finished = blocksOf v s.finished) : RowGood s' v := by
  have htyped : s'.typed v = s.typed v := by
    unfold State.typed
    rw [hpc, hfinished]
  exact ⟨hpc ▸ h.range, by rw [hrow, htyped, h.row], by rw [hcolumn, htyped, h.column],
    by rw [htaken, hfinished, hpc, h.order]⟩

theorem typed_of_pc {s : State} {w : Worker} {p : Pc} (hpc : s.pc w = p) :
    s.typed w = (blocksOf w s.finished).flatMap Block.pattern ++ p.progress := by
  unfold State.typed
  rw [hpc]

theorem row_of_screen {s s' : State} (h : s'.screen = s.screen) (w : Worker) :
    s'.row w = s.row w := by
  unfold State.row
  rw [h]

/-! ## Steps -/

section

variable {s s' : State} {v w : Worker} {p : Pc}

/-- A worker, or none, moves on and has typed no more than before. -/
theorem RowGood.move (h : RowGood s v) (hpc : s'.pc = Function.update s.pc w p)
    (hheld : p.held = (s.pc w).held) (hprogress : p.progress = (s.pc w).progress)
    (hrange : p.InRange) (hscreen : s'.screen = s.screen) (hcolumn : s'.column = s.column)
    (htaken : s'.taken = s.taken) (hfinished : s'.finished = s.finished) : RowGood s' v := by
  by_cases hv : v = w
  · subst hv
    have hp : s'.pc v = p := by rw [hpc, Function.update_self]
    have htyped : s'.typed v = s.typed v := by
      rw [typed_of_pc hp, typed_of_pc rfl, hfinished, hprogress]
    exact ⟨hp ▸ hrange, by rw [row_of_screen hscreen, htyped, h.row],
      by rw [hcolumn, htyped, h.column], by rw [htaken, hfinished, hp, hheld, h.order]⟩
  · exact h.congr (by rw [hpc, Function.update_of_ne hv]) (row_of_screen hscreen v)
      (by rw [hcolumn]) (by rw [htaken]) (by rw [hfinished])

/-- Nobody moves but the main thread. -/
theorem RowGood.stay (h : RowGood s v) (hpc : s'.pc = s.pc) (hscreen : s'.screen = s.screen)
    (hcolumn : s'.column = s.column) (htaken : s'.taken = s.taken)
    (hfinished : s'.finished = s.finished) : RowGood s' v :=
  h.congr (by rw [hpc]) (row_of_screen hscreen v) (by rw [hcolumn]) (by rw [htaken])
    (by rw [hfinished])

theorem row_put_self {c : UInt8} (hscreen : s'.screen = s.screen ++ [(w.val, s.column w, c)]) :
    s'.row w = s.row w ++ [(w.val, s.column w, c)] := by
  unfold State.row
  rw [hscreen, List.filter_append, List.filter_cons_of_pos (by simp), List.filter_nil]

theorem row_put_other {c : UInt8} (hscreen : s'.screen = s.screen ++ [(w.val, s.column w, c)])
    (h : v ≠ w) : s'.row v = s.row v := by
  have hne : ¬ w.val = v.val := fun heq => h (Fin.ext heq).symm
  unfold State.row
  rw [hscreen, List.filter_append, List.filter_cons_of_neg (by simpa using hne), List.filter_nil,
    List.append_nil]

/-- A worker types a character. -/
theorem RowGood.put (h : RowGood s v) {c : UInt8} (hpc : s'.pc = Function.update s.pc w p)
    (hheld : p.held = (s.pc w).held) (hprogress : p.progress = (s.pc w).progress ++ [c])
    (hrange : p.InRange) (hscreen : s'.screen = s.screen ++ [(w.val, s.column w, c)])
    (hcolumn : s'.column = Function.update s.column w (s.column w + 1))
    (htaken : s'.taken = s.taken) (hfinished : s'.finished = s.finished) : RowGood s' v := by
  by_cases hv : v = w
  · subst hv
    have hp : s'.pc v = p := by rw [hpc, Function.update_self]
    have htyped : s'.typed v = s.typed v ++ [c] := by
      rw [typed_of_pc hp, typed_of_pc rfl, hfinished, hprogress, List.append_assoc]
    refine ⟨hp ▸ hrange, ?_, ?_, by rw [htaken, hfinished, hp, hheld, h.order]⟩
    · rw [row_put_self hscreen, htyped, layOut_concat, ← h.row, ← h.column]
    · rw [hcolumn, Function.update_self, htyped, List.length_append, ← h.column,
        List.length_singleton]
  · exact h.congr (by rw [hpc, Function.update_of_ne hv]) (row_put_other hscreen hv)
      (by rw [hcolumn, Function.update_of_ne hv]) (by rw [htaken]) (by rw [hfinished])

/-- A worker without a block takes one. -/
theorem RowGood.take (h : RowGood s v) {b : Block} (htake : s.pc w = .take)
    (hpc : s'.pc = Function.update s.pc w (.outer b 0)) (hscreen : s'.screen = s.screen)
    (hcolumn : s'.column = s.column) (htaken : s'.taken = s.taken ++ [(w, b)])
    (hfinished : s'.finished = s.finished) : RowGood s' v := by
  by_cases hv : v = w
  · subst hv
    have hp : s'.pc v = .outer b 0 := by rw [hpc, Function.update_self]
    have htyped : s'.typed v = s.typed v := by
      rw [typed_of_pc hp, typed_of_pc htake, hfinished]
      rfl
    have horder : blocksOf v s.taken = blocksOf v s.finished := by
      rw [h.order, htake]
      exact List.append_nil _
    refine ⟨by rw [hp]; exact Nat.zero_le _, by rw [row_of_screen hscreen, htyped, h.row],
      by rw [hcolumn, htyped, h.column], ?_⟩
    rw [htaken, hfinished, blocksOf_concat_self, horder, hp]
    rfl
  · exact h.congr (by rw [hpc, Function.update_of_ne hv]) (row_of_screen hscreen v)
      (by rw [hcolumn]) (by rw [htaken, blocksOf_concat_other (Ne.symm hv)]) (by rw [hfinished])

/-- A worker is done with the rounds of its block. -/
theorem RowGood.finish (h : RowGood s v) {b : Block} (houter : s.pc w = .outer b b.number_of_blocks)
    (hpc : s'.pc = Function.update s.pc w .loop) (hscreen : s'.screen = s.screen)
    (hcolumn : s'.column = s.column) (htaken : s'.taken = s.taken)
    (hfinished : s'.finished = s.finished ++ [(w, b)]) : RowGood s' v := by
  by_cases hv : v = w
  · subst hv
    have hp : s'.pc v = .loop := by rw [hpc, Function.update_self]
    have htyped : s'.typed v = s.typed v := by
      rw [typed_of_pc hp, typed_of_pc houter, hfinished, blocksOf_concat_self, List.flatMap_append,
        List.flatMap_singleton]
      exact List.append_nil _
    refine ⟨by rw [hp]; trivial, by rw [row_of_screen hscreen, htyped, h.row],
      by rw [hcolumn, htyped, h.column], ?_⟩
    rw [htaken, hfinished, blocksOf_concat_self, h.order, houter, hp]
    exact (List.append_nil _).symm
  · exact h.congr (by rw [hpc, Function.update_of_ne hv]) (row_of_screen hscreen v)
      (by rw [hcolumn]) (by rw [htaken]) (by rw [hfinished, blocksOf_concat_other (Ne.symm hv)])

/-- While `enabled` is set, every step leaves every row good. -/
theorem rowGood_step {a : Act} (h : ∀ v, RowGood s v) (hen : s.enabled = true)
    (hs : Step s a s') (hen' : s'.enabled = true) (v : Worker) : RowGood s' v := by
  cases hs with
  | put w b i j hpc hj =>
      have hrange := (h w).range
      rw [hpc] at hrange
      refine (h v).put rfl (by rw [hpc]; rfl) ?_ ⟨hrange.1, hj⟩ rfl rfl rfl rfl
      rw [hpc, Pc.progress, Pc.progress, List.replicate_succ', List.append_assoc]
  | space w b i j hpc hj =>
      have hrange := (h w).range
      rw [hpc] at hrange
      have hfull : j = b.block_length := by
        have hle := hrange.2
        omega
      refine (h v).put rfl (by rw [hpc]; rfl) ?_ hrange.1 rfl rfl rfl rfl
      rw [hpc, Pc.progress, Pc.progress, b.rounds_succ, hfull]
  | take w b rest hpc hlist => exact (h v).take hpc rfl rfl rfl rfl rfl
  | finish w b i hpc hi =>
      have hrange : i ≤ b.number_of_blocks := by
        have hr := (h w).range
        rwa [hpc] at hr
      have hall : i = b.number_of_blocks := by omega
      exact (h v).finish (hall ▸ hpc) rfl rfl rfl rfl rfl
  | round w b i hpc hi =>
      refine (h v).move rfl (by rw [hpc]; rfl) ?_ ⟨hi, Nat.zero_le _⟩ rfl rfl rfl rfl
      rw [hpc]
      exact List.append_nil _
  | next w b i j hpc hslept =>
      have hrange := (h w).range
      rw [hpc] at hrange
      exact (h v).move rfl (by rw [hpc]; rfl) (by rw [hpc]; rfl) hrange rfl rfl rfl rfl
  -- outside of the loops nothing is held
  | enter w hpc | lock w hpc | wait w hpc | pass w hpc | relock w hpc | check w hpc
  | wake w _ hpc =>
      exact (h v).move rfl (by rw [hpc]; rfl) (by rw [hpc]; rfl) trivial rfl rfl rfl rfl
  -- these see that `enabled` is 0, or make it so
  | leave w hpc hoff | giveUp w hpc hoff | abandon w b i j hpc hoff =>
      rw [hoff] at hen
      cases hen
  | disable => cases hen'
  | create | appendLock | append | lost | quit | signalled | join =>
      exact (h v).stay rfl rfl rfl rfl rfl

/-- Only a worker puts characters on the screen, and only on its own row. -/
theorem screen_step {a : Act} (hs : Step s a s') : ∃ new, s'.screen = s.screen ++ new ∧
    ∀ e ∈ new, ∃ w : Worker, a = .worker w ∧ e.1 = w.val := by
  cases hs with
  | put w | space w =>
      refine ⟨_, rfl, fun e he => ⟨w, rfl, ?_⟩⟩
      rw [List.mem_singleton.mp he]
  | _ => exact ⟨[], (List.append_nil _).symm, fun _ he => absurd he List.not_mem_nil⟩

theorem enabled_step {a : Act} (hs : Step s a s') (hen : s'.enabled = true) :
    s.enabled = true := by
  cases hs with
  | disable => cases hen
  | _ => exact hen

end

/-! ## Runs -/

theorem rowGood_init (v : Worker) : RowGood State.init v := ⟨trivial, rfl, rfl, rfl⟩

theorem rowGood_run {acts : List Act} {s : State} (hrun : run step State.init acts = some s) :
    s.enabled = true → ∀ v, RowGood s v := by
  refine run_invariant (fun s => s.enabled = true → ∀ v, RowGood s v) (fun _ => rowGood_init)
    (fun s a s' h hs hen' => ?_) hrun
  have hstep := step_cases hs
  have hen := enabled_step hstep hen'
  exact rowGood_step (h hen) hen hstep hen'

/-- After every run that leaves `enabled` set, for each worker: the characters on its row are at
    the columns 0, 1, 2, ..; they are the patterns of the blocks that it has finished, in the
    order in which it took them, and a prefix of the pattern of the block that it holds; and
    `aux[w].p` is their number. The next step puts characters on no row but that of the worker
    that takes it. -/
theorem rows_run {acts : List Act} {s : State} (hrun : run step State.init acts = some s)
    (hen : s.enabled = true) :
    (∀ w : Worker, ∃ part,
      (s.row w).map (fun e => e.2.1) = List.range (s.row w).length ∧
      (s.row w).map (fun e => e.2.2) = (blocksOf w s.finished).flatMap Block.pattern ++ part ∧
      part <+: ((s.pc w).held.map Block.pattern).getD [] ∧
      blocksOf w s.taken = blocksOf w s.finished ++ (s.pc w).held.toList ∧
      s.column w = (s.row w).length) ∧
    ∀ a s', step s a = some s' → ∃ new, s'.screen = s.screen ++ new ∧
      ∀ e ∈ new, ∃ w : Worker, a = .worker w ∧ e.1 = w.val := by
  refine ⟨fun w => ?_, fun a s' hs => screen_step (step_cases hs)⟩
  have h := rowGood_run hrun hen w
  have hlen : (s.row w).length = (s.typed w).length := by
    rw [h.row]
    exact List.length_mapIdx
  refine ⟨(s.pc w).progress, ?_, ?_, Pc.progress_prefix h.range, h.order, hlen ▸ h.column⟩
  · rw [hlen, h.row, layOut_columns]
  · rw [h.row, layOut_characters]
    rfl

/-- Two blocks are appended; the workers 0 and 1 take one each, the second begins with its own and
    the first finishes its own. -/
def typingActs : List Act :=
  [.append 97 1 1, .main none, .main none, .main none,
   .append 98 2 1, .main none, .main none, .main none] ++
  List.replicate 5 (.worker 0) ++ List.replicate 7 (.worker 1) ++ List.replicate 5 (.worker 0)

theorem rows_run_typing : ∃ s, run step State.init typingActs = some s ∧
    s.row 0 = [(0, 0, 97), (0, 1, 32)] ∧ s.row 1 = [(1, 0, 98)] ∧
    s.finished = [(0, ⟨0, 97, 1, 1⟩)] ∧
    s.column 0 = (s.row 0).length ∧ s.column 1 = (s.row 1).length ∧
    blocksOf 1 s.taken = blocksOf 1 s.finished ++ (s.pc 1).held.toList := by
  obtain ⟨s, hs⟩ := Option.isSome_iff_exists.mp
    (by decide +kernel : (run step State.init typingActs).isSome = true)
  have hstate : (run step State.init typingActs).map (fun s => (s.enabled, s.finished)) =
      some (true, [(0, ⟨0, 97, 1, 1⟩)]) := by decide +kernel
  have hscreen : (run step State.init typingActs).map (fun s => (s.row 0, s.row 1)) =
      some ([(0, 0, 97), (0, 1, 32)], [(1, 0, 98)]) := by decide +kernel
  rw [hs, Option.map_some, Option.some.injEq, Prod.mk.injEq] at hstate hscreen
  obtain ⟨hen, hfinished⟩ := hstate
  obtain ⟨hfirst, hsecond⟩ := hscreen
  have hrows := (rows_run hs hen).1
  obtain ⟨-, -, -, -, -, hcolumn⟩ := hrows 0
  obtain ⟨-, -, -, -, horder, hcolumn'⟩ := hrows 1
  exact ⟨s, hs, hfirst, hsecond, hfinished, hcolumn, hcolumn', horder⟩

end KernelBasecamp.Pool
