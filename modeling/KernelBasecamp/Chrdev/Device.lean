/-
  The character device of exercise11: `dev_read` (dev.h) and, for the device of part01
  (fixdev.c), `dev_open` and `dev_release`, which are to let in one client at a time.

  The kernel does not serialize these calls, and `device_open` is a plain `int`. So the test
  in `dev_open`, and the load and the store of `device_open++` and `device_open--`, are steps of
  their own, and the steps of any number of clients interleave. There are fewer clients than an
  `int` can count, and the model's counter is an integer.

  `received` records what the reads of a client have returned since it opened the device: as
  many bytes from the start of its buffer as the result says. The code does not read it.
-/
import KernelBasecamp.Lib.Run

namespace KernelBasecamp.Chrdev

open Lib

def EINVAL : Int := 22

/-- "Hello, world!\n" -/
def hello_str : List UInt8 := [72, 101, 108, 108, 111, 44, 32, 119, 111, 114, 108, 100, 33, 10]

/-- The result and the new `*ppos`; `copy_to_user` leaves `left` bytes uncopied. -/
def dev_read (left count : Nat) (ppos : Int) : Int × Int :=
  let len := hello_str.length
  if count < len then (-EINVAL, ppos)
  else if ppos ≠ 0 then (0, ppos)
  else if left ≠ 0 then (-EINVAL, ppos)
  else (len, len)

/-- Where a client stands. -/
inductive Point where
  | closed
  /-- in `dev_open`, past `if (device_open)` -/
  | admitted
  /-- `device_open++` has read `n` -/
  | counting (n : Int)
  | opened (ppos : Int)
  /-- `device_open--` has read `n` -/
  | leaving (n : Int)
  deriving DecidableEq, Repr

structure State (ι : Type) where
  device_open : Int
  point : ι → Point
  received : ι → List UInt8

/-- The freshly loaded module. -/
def State.init {ι : Type} : State ι := ⟨0, fun _ => .closed, fun _ => []⟩

/-- A client goes on with opening or closing the device, or reads from it. -/
inductive Act (ι : Type) where
  | call (c : ι)
  | read (c : ι) (count left : Nat)
  deriving DecidableEq, Repr

variable {ι : Type} [DecidableEq ι]

def State.goto (s : State ι) (c : ι) (p : Point) : State ι :=
  { s with point := Function.update s.point c p }

def step (s : State ι) : Act ι → Option (State ι)
  | .call c =>
      match s.point c with
      | .closed =>
          -- `-EBUSY`
          if s.device_open ≠ 0 then some s else some (s.goto c .admitted)
      | .admitted => some (s.goto c (.counting s.device_open))
      | .counting n =>
          some ({ s with
            device_open := n + 1, received := Function.update s.received c [] }.goto c (.opened 0))
      | .opened _ => some (s.goto c (.leaving s.device_open))
      | .leaving n => some ({ s with device_open := n - 1 }.goto c .closed)
  | .read c count left =>
      match s.point c with
      | .opened ppos =>
          let (ret, ppos) := dev_read left count ppos
          some ({ s with
            received := Function.update s.received c
              (s.received c ++ hello_str.take ret.toNat) }.goto c (.opened ppos))
      | _ => none

@[simp] theorem goto_point (s : State ι) (c : ι) (p : Point) :
    (s.goto c p).point = Function.update s.point c p := rfl

/-- The edges of the step function. -/
inductive Step (s : State ι) : Act ι → State ι → Prop where
  | busy (c : ι) (hp : s.point c = .closed) (hn : s.device_open ≠ 0) : Step s (.call c) s
  | enter (c : ι) (hp : s.point c = .closed) (hn : s.device_open = 0) :
      Step s (.call c) (s.goto c .admitted)
  | load (c : ι) (hp : s.point c = .admitted) :
      Step s (.call c) (s.goto c (.counting s.device_open))
  | store (c : ι) (n : Int) (hp : s.point c = .counting n) :
      Step s (.call c) ({ s with
        device_open := n + 1, received := Function.update s.received c [] }.goto c (.opened 0))
  | leave (c : ι) (ppos : Int) (hp : s.point c = .opened ppos) :
      Step s (.call c) (s.goto c (.leaving s.device_open))
  | close (c : ι) (n : Int) (hp : s.point c = .leaving n) :
      Step s (.call c) ({ s with device_open := n - 1 }.goto c .closed)
  | read (c : ι) (count left : Nat) (ppos : Int) (hp : s.point c = .opened ppos) :
      Step s (.read c count left) ({ s with
        received := Function.update s.received c
          (s.received c ++ hello_str.take (dev_read left count ppos).1.toNat) }.goto c
            (.opened (dev_read left count ppos).2))

/-- The steps of the model are the edges. -/
theorem step_iff {s s' : State ι} {a : Act ι} : step s a = some s' ↔ Step s a s' := by
  constructor
  · intro h
    unfold step at h
    split at h
    · next c =>
        split at h
        case h_1 hp =>
          split at h
          · next hn => cases h; exact .busy c hp hn
          · next hn => cases h; exact .enter c hp (not_not.mp hn)
        case h_2 hp => cases h; exact .load c hp
        case h_3 n hp => cases h; exact .store c n hp
        case h_4 ppos hp => cases h; exact .leave c ppos hp
        case h_5 n hp => cases h; exact .close c n hp
    · next c count left =>
        split at h
        case h_1 ppos hp => cases h; exact .read c count left ppos hp
        case h_2 => cases h
  · intro h
    unfold step
    cases h with
    | busy c hp hn => simp only [hp, if_pos hn]
    | enter c hp hn => simp only [hp, if_neg (not_not.mpr hn)]
    | load c hp | store c n hp | leave c ppos hp | close c n hp | read c count left ppos hp =>
        simp only [hp]

end KernelBasecamp.Chrdev
