/-
  The currency module of task05 (part02/exchange.c): two files under /proc that convert an amount
  written to them at a common rate.

  The two `currency_t` records serve in crossed roles. The record of the currency converted
  from holds the amount and both protocol flags of a file; the record of the other currency
  holds the digits of its result. A pointer to a record is a `Ptr`. All formatting and parsing
  goes through `proc_buffer`, whose contents are arbitrary when it is allocated. An `int` is an
  integer kept in the range of 32 bits; the flags, only ever 0 or 1, are truth values.

  `buffer` of a write is the user's memory from the pointer given on. The `left` of a call is
  how many bytes its user copy leaves uncopied. The arguments `file_p` and `offset` and the
  `length` of a read are not looked at by the code and left out, as are the messages printed.
-/
import KernelBasecamp.Lib.CInt
import KernelBasecamp.Lib.CString
import KernelBasecamp.Lib.Decimal
import KernelBasecamp.Lib.Run
import KernelBasecamp.Lib.Sscanf

namespace KernelBasecamp.Currency

open Lib.CInt Lib.CMem Lib.Decimal Lib.Sscanf

def BUFFER_SIZE : Nat := 16

/-- `struct currency_t`. -/
structure CurrencyT where
  amount : Int
  l : Int
  r : Int
  read : Bool
  write : Bool
  deriving DecidableEq, Repr

structure State where
  proc_buffer : List UInt8
  current_exchange_rate : Int
  uah : CurrencyT
  eu : CurrencyT
  deriving DecidableEq, Repr

/-- The module as it is loaded, with the contents of the buffer allocated. -/
def State.loaded (proc_buffer : List UInt8) : State :=
  ⟨proc_buffer, 31, ⟨0, 0, 0, false, false⟩, ⟨0, 0, 0, false, false⟩⟩

/-- `&uah` and `&eu`. -/
inductive Ptr where
  | uah
  | eu
  deriving DecidableEq, Repr

def State.get (s : State) : Ptr → CurrencyT
  | .uah => s.uah
  | .eu => s.eu

def State.set (s : State) (p : Ptr) (c : CurrencyT) : State :=
  match p with
  | .uah => { s with uah := c }
  | .eu => { s with eu := c }

@[simp] theorem State.get_set (s : State) (p : Ptr) (c : CurrencyT) : (s.set p c).get p = c := by
  cases p <;> rfl

theorem State.get_set_of_ne (s : State) {p q : Ptr} (h : q ≠ p) (c : CurrencyT) :
    (s.set p c).get q = s.get q := by
  cases p <;> cases q <;> first | rfl | exact absurd rfl h

@[simp] theorem State.set_proc_buffer (s : State) (p : Ptr) (c : CurrencyT) :
    (s.set p c).proc_buffer = s.proc_buffer := by
  cases p <;> rfl

@[simp] theorem State.set_rate (s : State) (p : Ptr) (c : CurrencyT) :
    (s.set p c).current_exchange_rate = s.current_exchange_rate := by
  cases p <;> rfl

@[simp] theorem State.get_buffer (s : State) (m : List UInt8) (p : Ptr) :
    State.get { s with proc_buffer := m } p = s.get p := by
  cases p <;> rfl

/-! ## Conversions -/

def uah_to_eu (s : State) : Option State := do
  let n ← divide 32 (wrap 32 (100 * s.uah.amount)) s.current_exchange_rate
  some { s with eu := { s.eu with l := n.tdiv 100, r := n.tmod 100 } }

def eu_to_uah (s : State) : State :=
  let n := wrap 32 (wrap 32 (100 * s.eu.amount) * s.current_exchange_rate)
  { s with uah := { s.uah with l := n.tdiv 100, r := n.tmod 100 } }

/-- `sscanf(buf, "%d", &current_exchange_rate)`. -/
def exchange_store (s : State) (buf : List UInt8) : Option State := do
  match ← scanInt buf with
  | none => some s
  | some (n, _) => some { s with current_exchange_rate := wrap 32 n }

/-! ## The files -/

/-- The text printed by `sprintf`. -/
def amountText (l r : Int) : List UInt8 := intText l ++ [46] ++ intText r ++ [10]

/-- The new state, the result and the bytes delivered. -/
def exchange_read (s : State) (left : Nat) (src dst : Ptr) :
    Option (State × Nat × List UInt8) :=
  let c := s.get src
  if c.read then some (s.set src { c with read := false }, 0, [])
  else do
    let s := s.set src { c with read := true }
    let proc_buffer ←
      storeBytes s.proc_buffer 0 (amountText (s.get dst).l (s.get dst).r ++ [0])
    let length ← strlen proc_buffer
    let bytes ← copy_to_user proc_buffer 0 length left
    some ({ s with proc_buffer }, size_sub length left, bytes)

def exchange_write (s : State) (buffer : List UInt8) (length left : Nat) (src : Ptr) :
    Option (State × Nat) :=
  let c := s.get src
  if c.write then some (s.set src { c with write := false }, 0)
  else do
    let proc_buffer ← copy_from_user buffer BUFFER_SIZE left
    let scanned ← scanInt proc_buffer
    let amount := match scanned with
      | none => c.amount
      | some (n, _) => wrap 32 n
    some ({ s.set src { c with write := true, amount } with proc_buffer }, size_sub length left)

def uah_to_eu_read (s : State) (left : Nat) : Option (State × Nat × List UInt8) := do
  let s ← uah_to_eu s
  exchange_read s left .uah .eu

def eu_to_uah_read (s : State) (left : Nat) : Option (State × Nat × List UInt8) :=
  exchange_read (eu_to_uah s) left .eu .uah

def uah_to_eu_write (s : State) (buffer : List UInt8) (length left : Nat) :
    Option (State × Nat) := exchange_write s buffer length left .uah

def eu_to_uah_write (s : State) (buffer : List UInt8) (length left : Nat) :
    Option (State × Nat) := exchange_write s buffer length left .eu

/-! ## Steps -/

inductive File where
  | uah_to_eu
  | eu_to_uah
  deriving DecidableEq, Repr

def proc_read : File → State → Nat → Option (State × Nat × List UInt8)
  | .uah_to_eu => uah_to_eu_read
  | .eu_to_uah => eu_to_uah_read

def proc_write : File → State → List UInt8 → Nat → Nat → Option (State × Nat)
  | .uah_to_eu => uah_to_eu_write
  | .eu_to_uah => eu_to_uah_write

inductive Act where
  | rate (buf : List UInt8)
  | write (f : File) (buffer : List UInt8) (length left : Nat)
  | read (f : File) (left : Nat)
  deriving DecidableEq, Repr

def step (s : State) : Act → Option State
  | .rate buf => exchange_store s buf
  | .write f buffer length left => (proc_write f s buffer length left).map Prod.fst
  | .read f left => (proc_read f s left).map Prod.fst

end KernelBasecamp.Currency
