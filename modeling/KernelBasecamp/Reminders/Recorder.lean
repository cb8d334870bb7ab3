/-
  The reminder module of task08 (reminder.c): the list of pending reminders and the functions
  that walk it.

  `reminders` is a circular list with a head of its own; the model holds its entries in the
  order in which `list_for_each` meets them, and an iterator is the number of entries it has
  passed. The iterator that stands behind the last entry is the list head, and `list_add_tail`
  before it puts the entry at the end. `ktime_t` is an integer. The clock is a function
  `ktime_get : Nat → Int` from the number of readings taken so far to the next reading; the
  delivery log keeps each reminder printed together with the reading that let it out.
-/
import Mathlib

namespace KernelBasecamp.Reminders

/-- `struct reminder`. -/
structure Reminder where
  trigger_time : Int
  user : List UInt8
  message : List UInt8
  deriving DecidableEq, Repr

/-- The `list_for_each` of `add_message`: the iterator stops at the first entry with a later
    trigger time, or behind the last entry. -/
def addPosition (r : Reminder) : List Reminder → Nat
  | [] => 0
  | e :: es => if e.trigger_time > r.trigger_time then 0 else addPosition r es + 1

/-- `list_add_tail(&r->next, it)`: `r` goes in front of the entry `it` stands at. -/
def list_add_tail (r : Reminder) (it : Nat) (reminders : List Reminder) : List Reminder :=
  reminders.insertIdx it r

def add_message (reminders : List Reminder) (r : Reminder) : List Reminder :=
  list_add_tail r (addPosition r reminders) reminders

/-- What one walk of `trigger_messages` does. -/
structure Tick where
  delivered : List (Reminder × Int)
  reminders : List Reminder
  reads : Nat

/-- `trigger_messages` on the list, with `reads` clock readings taken before. The clock is
    read again for every entry; the walk stops at the first entry that is not due. -/
def trigger_messages (ktime_get : Nat → Int) (reads : Nat) : List Reminder → Tick
  | [] => ⟨[], [], reads⟩
  | r :: rs =>
      if r.trigger_time ≤ ktime_get reads then
        let rest := trigger_messages ktime_get (reads + 1) rs
        { rest with delivered := (r, ktime_get reads) :: rest.delivered }
      else ⟨[], r :: rs, reads + 1⟩

/-- The module: the list, the number of clock readings taken, and the delivery log. -/
structure State where
  reminders : List Reminder
  reads : Nat
  delivered : List (Reminder × Int)

/-- The freshly loaded module. -/
def State.init : State := ⟨[], 0, []⟩

/-- The calls that change the list. -/
inductive Op where
  | add (r : Reminder)
  | tick

def step (ktime_get : Nat → Int) (s : State) : Op → Option State
  | .add r => some { s with reminders := add_message s.reminders r }
  | .tick =>
      let t := trigger_messages ktime_get s.reads s.reminders
      some ⟨t.reminders, t.reads, s.delivered ++ t.delivered⟩

/-- The reminders passed to `add_message`, in call order. -/
def added (ops : List Op) : List Reminder :=
  ops.filterMap fun
    | .add r => some r
    | .tick => none

/-- The reminders delivered so far, in delivery order. -/
def State.fired (s : State) : List Reminder := s.delivered.map Prod.fst

end KernelBasecamp.Reminders
