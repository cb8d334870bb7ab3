/-
  The thread pool of exercise16/part01 (threadpool.c): the main thread, which appends blocks
  and shuts the pool down, and the workers that run `runner`.

  Every access to shared data is a step of its own: reading `enabled`, locking the mutex,
  testing `data_list`, taking the head, appending, signalling, setting `enabled` to 0. Releasing
  the mutex goes with the last access before it; entering `pthread_cond_wait` and releasing the
  mutex is one step. A signal wakes exactly one waiting worker, which has to lock the mutex
  again in a later step; a signal that finds nobody waiting is lost, and nobody wakes up without
  a signal. `put_char` is one step, since it runs under `print_lock`.

  `data_list->data` on an empty list is a null dereference: the step is not possible and the
  process has crashed. The states reached by runs of `step` are the ones before a crash.

  `appended`, `taken`, `finished` and `abandoned` record what happened to the blocks; the code
  does not read them. A block is named by the number of blocks appended before it (`id`), which
  stands for the address that `malloc` returned.
-/
import Mathlib
import KernelBasecamp.Lib.Run

namespace KernelBasecamp.Pool

abbrev THREAD_COUNT : Nat := 4

instance : NeZero THREAD_COUNT := ⟨by decide⟩

abbrev Worker := Fin THREAD_COUNT

/-- `struct block_data`, named by its allocation. -/
structure Block where
  id : Nat
  c : UInt8
  block_length : Nat
  number_of_blocks : Nat
  deriving DecidableEq, Repr

/-- Where a worker stands in `runner`. -/
inductive Pc where
  /-- `while (enabled)` -/
  | loop
  /-- `pthread_mutex_lock` -/
  | lock
  /-- `if (data_list == 0)`, with the mutex -/
  | test
  /-- blocked in `pthread_cond_wait` -/
  | waiting
  /-- signalled, and about to lock the mutex again -/
  | woken
  /-- `if (!enabled)`, with the mutex -/
  | check
  /-- `data = data_list->data`, with the mutex -/
  | take
  /-- the test of the outer `for` -/
  | outer (data : Block) (i : Nat)
  /-- the test of the inner `for` -/
  | inner (data : Block) (i j : Nat)
  /-- `if (!enabled)` after `sleep(1)` -/
  | slept (data : Block) (i j : Nat)
  | exited
  deriving DecidableEq, Repr

/-- Where the main thread stands. -/
inductive MainPc where
  /-- waiting for a line of input -/
  | input
  /-- `append_data`, before and after locking, and before the signal -/
  | appendLock (d : Block)
  | appendBody (d : Block)
  | appendSignal
  /-- `shutdown_threads`: before `enabled = 0`, after `i` signals, after `i` joins -/
  | disable
  | signals (i : Nat)
  | joins (i : Nat)
  deriving DecidableEq, Repr

inductive Party where
  | main
  | worker (w : Worker)
  deriving DecidableEq, Repr

structure State where
  enabled : Bool
  mutex : Option Party
  data_list : List Block
  pc : Worker → Pc
  main : MainPc
  /-- `aux[w].p` -/
  column : Worker → Nat
  /-- the characters issued: row, column, character -/
  screen : List (Nat × Nat × UInt8)
  appended : List Block
  taken : List (Worker × Block)
  finished : List (Worker × Block)
  abandoned : List (Worker × Block)

/-- After `init_threads`. -/
def State.init : State where
  enabled := true
  mutex := none
  data_list := []
  pc _ := .loop
  main := .input
  column _ := 0
  screen := []
  appended := []
  taken := []
  finished := []
  abandoned := []

/-- What decides the next step: a worker moves, or the main thread reads a line (a block to
    append, or anything else, which ends the input) or moves; a signal names the worker it
    wakes. -/
inductive Act where
  | worker (w : Worker)
  | append (c : UInt8) (l n : Nat)
  | quit
  | main (wakes : Option Worker)
  deriving DecidableEq, Repr

def State.goto (s : State) (w : Worker) (p : Pc) : State :=
  { s with pc := Function.update s.pc w p }

/-- `put_char(info, c)`. -/
def State.put_char (s : State) (w : Worker) (c : UInt8) : State :=
  { s with
    screen := s.screen ++ [(w.val, s.column w, c)]
    column := Function.update s.column w (s.column w + 1) }

/-- One step of `runner`. -/
def runner (s : State) (w : Worker) : Option State :=
  match s.pc w with
  | .loop => if s.enabled then some (s.goto w .lock) else some (s.goto w .exited)
  | .lock =>
      if s.mutex = none then some ({ s with mutex := some (.worker w) }.goto w .test) else none
  | .test =>
      if s.data_list = [] then some ({ s with mutex := none }.goto w .waiting)
      else some (s.goto w .check)
  | .waiting => none
  | .woken =>
      if s.mutex = none then some ({ s with mutex := some (.worker w) }.goto w .check) else none
  | .check =>
      if s.enabled then some (s.goto w .take)
      else some ({ s with mutex := none }.goto w .exited)
  | .take =>
      match s.data_list with
      | [] => none
      | b :: rest =>
          some ({ s with mutex := none, data_list := rest, taken := s.taken ++ [(w, b)] }.goto w
            (.outer b 0))
  | .outer b i =>
      if i < b.number_of_blocks then some (s.goto w (.inner b i 0))
      else some ({ s with finished := s.finished ++ [(w, b)] }.goto w .loop)
  | .inner b i j =>
      if j < b.block_length then some ((s.put_char w b.c).goto w (.slept b i j))
      else some ((s.put_char w 32).goto w (.outer b (i + 1)))
  | .slept b i j =>
      if s.enabled then some (s.goto w (.inner b i (j + 1)))
      else some ({ s with abandoned := s.abandoned ++ [(w, b)] }.goto w .exited)
  | .exited => none

/-- `pthread_cond_signal(&cond)`, after which the main thread stands at `next`. -/
def cond_signal (s : State) (next : MainPc) : Option Worker → Option State
  | some v =>
      if s.pc v = .waiting then some ({ s with main := next }.goto v .woken) else none
  | none => if ∀ v, s.pc v ≠ .waiting then some { s with main := next } else none

/-- One step of `append_data` or `shutdown_threads`. -/
def mainStep (s : State) (wakes : Option Worker) : Option State :=
  match s.main with
  | .input => none
  | .appendLock d =>
      if s.mutex = none then some { s with mutex := some .main, main := .appendBody d } else none
  | .appendBody d =>
      some { s with
        mutex := none
        data_list := s.data_list ++ [d]
        appended := s.appended ++ [d]
        main := .appendSignal }
  | .appendSignal => cond_signal s .input wakes
  | .disable => some { s with enabled := false, main := .signals 0 }
  | .signals i =>
      if i < THREAD_COUNT then cond_signal s (.signals (i + 1)) wakes
      else some { s with main := .joins 0 }
  | .joins i =>
      if h : i < THREAD_COUNT then
        if s.pc ⟨i, h⟩ = .exited then some { s with main := .joins (i + 1) } else none
      else none

def step (s : State) : Act → Option State
  | .worker w => runner s w
  | .append c l n =>
      if s.main = .input then
        some { s with main := .appendLock ⟨s.appended.length, c, l, n⟩ }
      else none
  | .quit => if s.main = .input then some { s with main := .disable } else none
  | .main wakes => mainStep s wakes

end KernelBasecamp.Pool
