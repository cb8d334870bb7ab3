/-
  The procfs file of exercise10/part01 (rw.c), which keeps the last message written until it is
  read: several clients at once.

  Nothing serializes the calls of `example_read` and `example_write`, so every access to one of
  the module's variables and every copy is a step of its own, and the steps of any number of
  clients interleave. In a subtraction the left operand is read first. `Rw` has the variables;
  the module of part02 adds only the reversal to them.

  `Event.apply` says what the file is for. The events are recorded where the data of a call
  crosses to or from the user; the code does not read them.
-/
import KernelBasecamp.Lib.Run
import KernelBasecamp.Procfs.Rw

namespace KernelBasecamp.Procfs.Mailbox

open Lib Lib.CMem

def BUFFER_SIZE : Nat := 10

/-- Where a client stands. -/
inductive Point where
  | idle
  /-- `example_read` before its test -/
  | test (length : Nat)
  /-- the test has read `proc_msg_length` -/
  | tested (length msg_length : Nat)
  /-- before `length = proc_msg_length - proc_msg_read_pos` -/
  | limit (asked : Nat)
  | limited (asked msg_length : Nat)
  /-- before `copy_to_user` -/
  | copy (asked length : Nat)
  /-- before `proc_msg_read_pos += n` -/
  | advance (n : Nat)
  | advanced (n read_pos : Nat)
  /-- `example_write` before `copy_from_user` -/
  | fill (buffer : List UInt8) (msg_length : Nat)
  /-- before `proc_msg_length = n` -/
  | size (n : Nat)
  /-- before `proc_msg_read_pos = 0` -/
  | rewind
  deriving DecidableEq, Repr

/-- A copy has brought `bytes` into the buffer or out of it. -/
inductive Event (ι : Type) where
  | wrote (c : ι) (bytes : List UInt8)
  | got (c : ι) (length left : Nat) (bytes : List UInt8)
  deriving DecidableEq, Repr

structure State (ι : Type) where
  dev : Rw
  point : ι → Point
  events : List (Event ι)

/-- The freshly loaded module. -/
def State.init {ι : Type} (dev : Rw) : State ι := ⟨dev, fun _ => .idle, []⟩

inductive Act (ι : Type) where
  | read (c : ι) (length : Nat)
  | write (c : ι) (buffer : List UInt8) (length : Nat)
  /-- the next access of `c`; if it is a copy, `left` bytes of it stay uncopied -/
  | go (c : ι) (left : Nat)
  deriving DecidableEq, Repr

variable {ι : Type} [DecidableEq ι]

def State.goto (s : State ι) (c : ι) (p : Point) : State ι :=
  { s with point := Function.update s.point c p }

/-- The next access of a call; `none` where a copy leaves `mem`, or its user memory. -/
def go (s : State ι) (c : ι) (left : Nat) : Option (State ι) :=
  match s.point c with
  | .idle => none
  | .test length => some (s.goto c (.tested length s.dev.proc_msg_length))
  | .tested length msg_length =>
      if length > size_sub msg_length s.dev.proc_msg_read_pos then some (s.goto c (.limit length))
      else some (s.goto c (.copy length length))
  | .limit asked => some (s.goto c (.limited asked s.dev.proc_msg_length))
  | .limited asked msg_length =>
      some (s.goto c (.copy asked (size_sub msg_length s.dev.proc_msg_read_pos)))
  | .copy asked length => do
      let bytes ← copy_to_user s.dev.mem (s.dev.proc_buffer + s.dev.proc_msg_read_pos) length left
      some ({ s with events := s.events ++ [Event.got c asked left bytes] }.goto c
        (.advance (length - left)))
  | .advance n => some (s.goto c (.advanced n s.dev.proc_msg_read_pos))
  | .advanced n read_pos =>
      some ({ s with dev := s.dev.setReadPos (size_add read_pos n) }.goto c .idle)
  | .fill buffer msg_length => do
      let bytes ← copy_from_user buffer msg_length left
      let mem ← storeBytes s.dev.mem s.dev.proc_buffer bytes
      some ({ s with
        dev := { s.dev with mem }
        events := s.events ++ [Event.wrote c (bytes.take (msg_length - left))] }.goto c
          (.size (msg_length - left)))
  | .size n => some ({ s with dev := { s.dev with proc_msg_length := n } }.goto c .rewind)
  | .rewind => some ({ s with dev := s.dev.setReadPos 0 }.goto c .idle)

def step (s : State ι) : Act ι → Option (State ι)
  | .read c length => if s.point c = .idle then some (s.goto c (.test length)) else none
  | .write c buffer length =>
      if s.point c = .idle then
        let msg_length := if length > BUFFER_SIZE then BUFFER_SIZE else length
        some (s.goto c (.fill buffer msg_length))
      else none
  | .go c left => go s c left

/-! ## What the file is for -/

/-- What is still to be read of the last message, after an event: a read hands out the next
    bytes, as many as were asked for and are there, less the ones that its copy has missed. -/
def Event.apply (unread : List UInt8) : Event ι → Option (List UInt8)
  | .wrote _ bytes => some bytes
  | .got _ length left bytes =>
      let n := min length unread.length - left
      if bytes = unread.take n then some (unread.drop n) else none

/-! ## Runs -/

def Quiet (s : State ι) : Prop := ∀ c, s.point c = .idle

/-- A call begins only when no other call is in progress. -/
def Alone (s : State ι) : Act ι → Prop
  | .read _ _ | .write _ _ _ => Quiet s
  | .go _ _ => True

instance [Fintype ι] (s : State ι) : Decidable (Quiet s) :=
  inferInstanceAs (Decidable (∀ c, s.point c = .idle))

instance [Fintype ι] (s : State ι) : ∀ a, Decidable (Alone s a)
  | .read .. | .write .. => inferInstanceAs (Decidable (Quiet s))
  | .go .. => inferInstanceAs (Decidable True)

/-- The cursor is behind the message. -/
def Overrun (s : State ι) : Prop := s.dev.proc_msg_length < s.dev.proc_msg_read_pos

theorem goto_point (s : State ι) (c : ι) (p : Point) :
    (s.goto c p).point = Function.update s.point c p := rfl

@[simp] theorem goto_at (s : State ι) (c : ι) (p : Point) : (s.goto c p).point c = p := by
  rw [goto_point, Function.update_self]

@[simp] theorem goto_dev (s : State ι) (c : ι) (p : Point) : (s.goto c p).dev = s.dev := rfl

@[simp] theorem goto_events (s : State ι) (c : ι) (p : Point) : (s.goto c p).events = s.events :=
  rfl

theorem goto_other {s : State ι} {c d : ι} (hd : d ≠ c) (p : Point) :
    (s.goto c p).point d = s.point d := by
  rw [goto_point, Function.update_of_ne hd]

theorem goto_goto (s : State ι) (c : ι) (p q : Point) : (s.goto c p).goto c q = s.goto c q := by
  unfold State.goto
  rw [Function.update_idem]

end KernelBasecamp.Procfs.Mailbox
