/-
  `messanger_store` of the messenger module of task09 (messanger.c): a line of text becomes a
  record in the list `messages` and a thread that prints it.

  A call comes with the memory from `buf` on, the earlier contents `old` of the record that
  `kmalloc` returns, and the error that `kthread_run` reports if it fails. A result of `none` is
  a fault: a null result of `strchr` that is advanced and used, or the end of the memory.
  Records and threads are numbered as they are made; a record of the model also keeps the line
  it was made from. A thread takes part only in what it does to its record at its end.
-/
import KernelBasecamp.Lib.CInt
import KernelBasecamp.Lib.CString
import KernelBasecamp.Lib.Run
import KernelBasecamp.Lib.Sscanf

namespace KernelBasecamp.Messanger

open Lib.CInt Lib.CMem Lib.Sscanf

def MAX_MESSAGE_LENGTH : Nat := 64

/-- `struct task_struct *`. -/
inductive Task where
  | null
  | handle (thread : Nat)
  /-- an error pointer, or what was in the memory -/
  | other (bits : UInt64)
  deriving DecidableEq, Repr

/-- `struct message`. -/
structure Message where
  delay : UInt32
  total : UInt32
  text : List UInt8
  task : Task
  deriving DecidableEq, Repr

structure Record where
  id : Nat
  line : List UInt8
  message : Message
  deriving DecidableEq, Repr

/-- `messages` from its head on; `threads` has for each thread the number of its record. -/
structure State where
  messages : List Record
  created : Nat
  threads : List Nat
  index : UInt32
  deriving DecidableEq, Repr

def State.init : State := ⟨[], 0, [], 0⟩

/-- The numbers that `sscanf(buf, "%d %d", ..)` stores before it stops. -/
def scanNumbers (buf : List UInt8) : Option (List Int) := do
  match ← scanInt buf with
  | none => some []
  | some (delay, str) =>
      let str ← skip_spaces str
      let total ← scanInt str
      some (delay :: total.toList.map Prod.fst)

/-- The record once `sscanf` has stored its numbers. -/
def Message.setNumbers (m : Message) : List Int → Message
  | [] => m
  | [delay] => { m with delay := toUnsigned delay }
  | delay :: total :: _ => { m with delay := toUnsigned delay, total := toUnsigned total }

/-- `kthread_run(func, m, ..)` for the record made now: its result, and the threads then. -/
def kthread_run (s : State) : Option UInt64 → Task × List Nat
  | none => (.handle s.threads.length, s.threads ++ [s.created])
  | some bits => (.other bits, s.threads)

/-- `list_add(&m->next, &messages)` comes first; what follows writes to the linked record. -/
def messanger_store (s : State) (buf : List UInt8) (old : Message) (err : Option UInt64) :
    Option State := do
  let numbers ← scanNumbers buf
  let m := old.setNumbers numbers
  if numbers.length ≠ 2 then
    some { s with messages := ⟨s.created, buf, m⟩ :: s.messages, created := s.created + 1 }
  else
    let p ← afterSecond 32 buf
    let text ← strncpy (buf.drop p) MAX_MESSAGE_LENGTH
    let (task, threads) := kthread_run s err
    some {
      messages := ⟨s.created, buf, { m with text, task }⟩ :: s.messages
      created := s.created + 1
      threads
      index := s.index + 1 }

/-- The end of `func` in a thread: `m->task = 0`. -/
def func_end (s : State) (thread : Nat) : State :=
  { s with messages := s.messages.map fun r =>
      if s.threads[thread]? = some r.id then { r with message := { r.message with task := .null } }
      else r }

inductive Call where
  | store (buf : List UInt8) (old : Message) (err : Option UInt64)
  | finish (thread : Nat)
  deriving DecidableEq, Repr

def step (s : State) : Call → Option State
  | .store buf old err => messanger_store s buf old err
  | .finish thread => some (func_end s thread)

end KernelBasecamp.Messanger
