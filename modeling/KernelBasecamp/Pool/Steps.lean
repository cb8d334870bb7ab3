/-
  What one step of the thread pool can do, said once: `Step s a s'` has a constructor for each
  edge of `runner`, `append_data` and `shutdown_threads`, and `step_cases` says that every step
  of the model is one of them. Invariants are proved by cases on `Step`.
-/
import KernelBasecamp.Pool.Threadpool

namespace KernelBasecamp.Pool

@[simp] theorem goto_pc (s : State) (w : Worker) (p : Pc) :
    (s.goto w p).pc = Function.update s.pc w p := rfl

/-- The edges of the step function. -/
inductive Step (s : State) : Act → State → Prop where
  | enter (w : Worker) (hpc : s.pc w = .loop) (hen : s.enabled = true) :
      Step s (.worker w) (s.goto w .lock)
  | leave (w : Worker) (hpc : s.pc w = .loop) (hen : s.enabled = false) :
      Step s (.worker w) (s.goto w .exited)
  | lock (w : Worker) (hpc : s.pc w = .lock) (hfree : s.mutex = none) :
      Step s (.worker w) ({ s with mutex := some (.worker w) }.goto w .test)
  | wait (w : Worker) (hpc : s.pc w = .test) (hnil : s.data_list = []) :
      Step s (.worker w) ({ s with mutex := none }.goto w .waiting)
  | pass (w : Worker) (hpc : s.pc w = .test) (hne : s.data_list ≠ []) :
      Step s (.worker w) (s.goto w .check)
  | relock (w : Worker) (hpc : s.pc w = .woken) (hfree : s.mutex = none) :
      Step s (.worker w) ({ s with mutex := some (.worker w) }.goto w .check)
  | check (w : Worker) (hpc : s.pc w = .check) (hen : s.enabled = true) :
      Step s (.worker w) (s.goto w .take)
  | giveUp (w : Worker) (hpc : s.pc w = .check) (hen : s.enabled = false) :
      Step s (.worker w) ({ s with mutex := none }.goto w .exited)
  | take (w : Worker) (b : Block) (rest : List Block) (hpc : s.pc w = .take)
      (hlist : s.data_list = b :: rest) :
      Step s (.worker w) ({ s with
        mutex := none, data_list := rest, taken := s.taken ++ [(w, b)] }.goto w (.outer b 0))
  | round (w : Worker) (b : Block) (i : Nat) (hpc : s.pc w = .outer b i)
      (hi : i < b.number_of_blocks) : Step s (.worker w) (s.goto w (.inner b i 0))
  | finish (w : Worker) (b : Block) (i : Nat) (hpc : s.pc w = .outer b i)
      (hi : ¬ i < b.number_of_blocks) :
      Step s (.worker w) ({ s with finished := s.finished ++ [(w, b)] }.goto w .loop)
  | put (w : Worker) (b : Block) (i j : Nat) (hpc : s.pc w = .inner b i j)
      (hj : j < b.block_length) :
      Step s (.worker w) ((s.put_char w b.c).goto w (.slept b i j))
  | space (w : Worker) (b : Block) (i j : Nat) (hpc : s.pc w = .inner b i j)
      (hj : ¬ j < b.block_length) :
      Step s (.worker w) ((s.put_char w 32).goto w (.outer b (i + 1)))
  | next (w : Worker) (b : Block) (i j : Nat) (hpc : s.pc w = .slept b i j)
      (hen : s.enabled = true) : Step s (.worker w) (s.goto w (.inner b i (j + 1)))
  | abandon (w : Worker) (b : Block) (i j : Nat) (hpc : s.pc w = .slept b i j)
      (hen : s.enabled = false) :
      Step s (.worker w) ({ s with abandoned := s.abandoned ++ [(w, b)] }.goto w .exited)
  | create (c : UInt8) (l n : Nat) (hmain : s.main = .input) :
      Step s (.append c l n) { s with main := .appendLock ⟨s.appended.length, c, l, n⟩ }
  | appendLock (o : Option Worker) (d : Block) (hmain : s.main = .appendLock d)
      (hfree : s.mutex = none) :
      Step s (.main o) { s with mutex := some .main, main := .appendBody d }
  | append (o : Option Worker) (d : Block) (hmain : s.main = .appendBody d) :
      Step s (.main o) { s with
        mutex := none, data_list := s.data_list ++ [d], appended := s.appended ++ [d],
        main := .appendSignal }
  | wake (v : Worker) (next : MainPc) (hpc : s.pc v = .waiting)
      (hmain : s.main = .appendSignal ∧ next = .input ∨
        ∃ i, i < THREAD_COUNT ∧ s.main = .signals i ∧ next = .signals (i + 1)) :
      Step s (.main (some v)) ({ s with main := next }.goto v .woken)
  | lost (next : MainPc) (hpc : ∀ v, s.pc v ≠ .waiting)
      (hmain : s.main = .appendSignal ∧ next = .input ∨
        ∃ i, i < THREAD_COUNT ∧ s.main = .signals i ∧ next = .signals (i + 1)) :
      Step s (.main none) { s with main := next }
  | quit (hmain : s.main = .input) : Step s .quit { s with main := .disable }
  | disable (o : Option Worker) (hmain : s.main = .disable) :
      Step s (.main o) { s with enabled := false, main := .signals 0 }
  | signalled (o : Option Worker) (i : Nat) (hi : ¬ i < THREAD_COUNT)
      (hmain : s.main = .signals i) : Step s (.main o) { s with main := .joins 0 }
  | join (o : Option Worker) (i : Nat) (hi : i < THREAD_COUNT) (hmain : s.main = .joins i)
      (hpc : s.pc ⟨i, hi⟩ = .exited) : Step s (.main o) { s with main := .joins (i + 1) }

theorem runner_cases {s s' : State} {w : Worker} (h : runner s w = some s') :
    Step s (.worker w) s' := by
  unfold runner at h
  split at h
  case h_1 hpc =>
    split at h
    · next hen => cases h; exact .enter w hpc hen
    · next hen => cases h; exact .leave w hpc (by simpa using hen)
  case h_2 hpc =>
    split at h
    · next hfree => cases h; exact .lock w hpc hfree
    · cases h
  case h_3 hpc =>
    split at h
    · next hnil => cases h; exact .wait w hpc hnil
    · next hne => cases h; exact .pass w hpc hne
  case h_4 => cases h
  case h_5 hpc =>
    split at h
    · next hfree => cases h; exact .relock w hpc hfree
    · cases h
  case h_6 hpc =>
    split at h
    · next hen => cases h; exact .check w hpc hen
    · next hen => cases h; exact .giveUp w hpc (by simpa using hen)
  case h_7 hpc =>
    split at h
    · cases h
    · next b rest hlist => cases h; exact .take w b rest hpc hlist
  case h_8 b i hpc =>
    split at h
    · next hi => cases h; exact .round w b i hpc hi
    · next hi => cases h; exact .finish w b i hpc hi
  case h_9 b i j hpc =>
    split at h
    · next hj => cases h; exact .put w b i j hpc hj
    · next hj => cases h; exact .space w b i j hpc hj
  case h_10 b i j hpc =>
    split at h
    · next hen => cases h; exact .next w b i j hpc hen
    · next hen => cases h; exact .abandon w b i j hpc (by simpa using hen)
  case h_11 => cases h

theorem cond_signal_cases {s s' : State} {next : MainPc} {o : Option Worker}
    (hmain : s.main = .appendSignal ∧ next = .input ∨
      ∃ i, i < THREAD_COUNT ∧ s.main = .signals i ∧ next = .signals (i + 1))
    (h : cond_signal s next o = some s') : Step s (.main o) s' := by
  unfold cond_signal at h
  split at h
  · next v =>
      split at h
      · next hpc => cases h; exact .wake v next hpc hmain
      · cases h
  · split at h
    · next hpc => cases h; exact .lost next hpc hmain
    · cases h

theorem mainStep_cases {s s' : State} {o : Option Worker} (h : mainStep s o = some s') :
    Step s (.main o) s' := by
  unfold mainStep at h
  split at h
  case h_1 => cases h
  case h_2 d hmain =>
    split at h
    · next hfree => cases h; exact .appendLock o d hmain hfree
    · cases h
  case h_3 d hmain => cases h; exact .append o d hmain
  case h_4 hmain => exact cond_signal_cases (.inl ⟨hmain, rfl⟩) h
  case h_5 hmain => cases h; exact .disable o hmain
  case h_6 i hmain =>
    split at h
    · next hi => exact cond_signal_cases (.inr ⟨i, hi, hmain, rfl⟩) h
    · next hi => cases h; exact .signalled o i hi hmain
  case h_7 i hmain =>
    split at h
    · next hi =>
        split at h
        · next hpc => cases h; exact .join o i hi hmain hpc
        · cases h
    · cases h

/-- Every step of the model is one of the edges. -/
theorem step_cases {s s' : State} {a : Act} (h : step s a = some s') : Step s a s' := by
  cases a with
  | worker w => exact runner_cases h
  | append c l n =>
      unfold step at h
      dsimp only at h
      split at h
      · next hmain => cases h; exact .create c l n hmain
      · cases h
  | quit =>
      unfold step at h
      dsimp only at h
      split at h
      · next hmain => cases h; exact .quit hmain
      · cases h
  | main o => exact mainStep_cases h

end KernelBasecamp.Pool
