/-
  `recorder_store` and `timer_callback` of the reminder module: how a line of text becomes a
  reminder, and when reminders are delivered.

  A call to `recorder_store` comes with the memory from `buf` on, the `count` of the sysfs
  layer and the earlier contents `old` of the bytes that `kmalloc` returns for `message`. A
  result of `none` is a fault: a null result of `strchr` that is advanced and used, a word too
  long for `u`, a message too long for its record, or the end of the memory. The module state
  is kept in a `History` with the reminders stored since load.
-/
import KernelBasecamp.Lib.CInt
import KernelBasecamp.Lib.CString
import KernelBasecamp.Lib.Sscanf
import KernelBasecamp.Reminders.Recorder

namespace KernelBasecamp.Reminders

open Lib.CInt Lib.CMem Lib.Sscanf

def USER_LENGTH : Nat := 32
def MESSAGE_LENGTH : Nat := 128
def KTIME_MAX : Int := 2 ^ 63 - 1
def NSEC_PER_SEC : Int := 1000000000

/-- `ktime_set(secs, 0)`. -/
def ktime_set (secs : Int) : Int :=
  if secs ≥ KTIME_MAX / NSEC_PER_SEC then KTIME_MAX else wrap 64 (secs * NSEC_PER_SEC)

/-- `sscanf(buf, "%s %lld", u, &t)`; the inner option is a result other than 2. -/
def scanLine (buf : List UInt8) : Option (Option (List UInt8 × Int)) := do
  match ← scanWord buf with
  | none => some none
  | some (u, str) =>
      if u.length ≥ USER_LENGTH then none
      else
        let str ← skip_spaces str
        let t ← scanInt str
        some (t.map fun t => (u, wrap 64 t.1))

/-- What `strncpy(r->message, m_ptr, m_last - m_ptr)` leaves in `r->message`. It may run on
    into `r->next`, the 16 bytes behind, which `add_message` fills in afterwards. -/
def copyMessage (m : List UInt8) (n : Nat) (old : List UInt8) : Option (List UInt8) := do
  if n > MESSAGE_LENGTH + 16 then none
  else
    let text ← strncpy m n
    some ((text ++ old.drop n).take MESSAGE_LENGTH)

/-- The new state, and the reminder if one is added. -/
def recorder_store (ktime_get : Nat → Int) (s : State) (buf : List UInt8) (count : Nat)
    (old : List UInt8) : Option (State × Option Reminder) := do
  match ← scanLine buf with
  | none => some (s, none)
  | some (u, t) =>
      let m_ptr ← afterSecond 32 buf
      let newline ← strchr 10 (buf.drop m_ptr)
      let terminator ← (← strchr 0 (buf.drop m_ptr))
      if m_ptr ≥ count then some (s, none)
      else
        -- `min` of a null pointer is null, and no memory has that many bytes to copy
        let newline ← newline
        let user ← strncpy (u ++ [0]) USER_LENGTH
        let message ← copyMessage (buf.drop m_ptr) (min newline terminator) old
        let trigger_time := wrap 64 (ktime_get s.reads + ktime_set t)
        let r : Reminder := ⟨trigger_time, user, message⟩
        some ({ s with reminders := add_message s.reminders r, reads := s.reads + 1 }, some r)

/-- The callback takes a reading of its own before it triggers. -/
def timer_callback (ktime_get : Nat → Int) (s : State) : State :=
  let t := trigger_messages ktime_get (s.reads + 1) s.reminders
  ⟨t.reminders, t.reads, s.delivered ++ t.delivered⟩

/-! ## Histories -/

structure History where
  state : State
  stored : List Reminder

def History.init : History := ⟨State.init, []⟩

inductive Call where
  | store (buf : List UInt8) (count : Nat) (old : List UInt8)
  | tick

def History.step (ktime_get : Nat → Int) (h : History) : Call → Option History
  | .store buf count old => (recorder_store ktime_get h.state buf count old).map fun r =>
      ⟨r.1, h.stored ++ r.2.toList⟩
  | .tick => some ⟨timer_callback ktime_get h.state, h.stored⟩

end KernelBasecamp.Reminders
