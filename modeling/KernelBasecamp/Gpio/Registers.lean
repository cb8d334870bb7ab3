/-
  The GPIO block of the chip, as c_gpio.c (task04) finds it behind `gpio_map`.

  This states what the registers mean, and is no translation of code. A `Device` holds the words
  that are just stored, and for each pin the output latch, the level that the outside puts on it,
  its event flag and (up to the third generation of the board) the resistor that is clocked into
  its pad. `write` does what a store into a register does, and afterwards the edges and levels that
  the pins are watched for set their flags.

  `Pin` is what all this comes to for one pin.
-/
import KernelBasecamp.Lib.BitField

namespace KernelBasecamp.Gpio

open Lib

def FSEL_OFFSET : Nat := 0
def SET_OFFSET : Nat := 7
def CLR_OFFSET : Nat := 10
def PINLEVEL_OFFSET : Nat := 13
def EVENT_DETECT_OFFSET : Nat := 16
def RISING_ED_OFFSET : Nat := 19
def FALLING_ED_OFFSET : Nat := 22
def HIGH_DETECT_OFFSET : Nat := 25
def LOW_DETECT_OFFSET : Nat := 28
def PULLUPDN_OFFSET : Nat := 37
def PULLUPDNCLK_OFFSET : Nat := 38
def PULLUPDN_OFFSET_2711_0 : Nat := 57
def PULLUPDN_OFFSET_2711_3 : Nat := 60

/-! ## One pin -/

inductive Pull
  | off
  | down
  | up
  | reserved
  deriving DecidableEq, Repr

/-- The code of a field on the fourth generation. -/
def Pull.of2711 (code : BitVec 2) : Pull :=
  if code = 0#2 then .off else if code = 1#2 then .up else if code = 2#2 then .down else .reserved

/-- The code of a control word before. -/
def Pull.ofControl (code : BitVec 2) : Pull :=
  if code = 0#2 then .off else if code = 1#2 then .down else if code = 2#2 then .up else .reserved

structure Pin where
  mode : BitVec 3
  latch : Bool
  /-- the level from outside -/
  drive : Bool
  event : Bool
  rising : Bool
  falling : Bool
  high : Bool
  low : Bool
  pull : Pull
  deriving DecidableEq, Repr

namespace Pin

/-- An output shows its latch. -/
def level (p : Pin) : Bool := if p.mode = 1 then p.latch else p.drive

/-- The pin is watched for what it did from one level to another. -/
def sees (p : Pin) (before after : Bool) : Bool :=
  (p.rising && !before && after) || (p.falling && before && !after) || (p.high && after) ||
    (p.low && !after)

def detect (old new : Pin) : Pin :=
  { new with event := new.event || new.sees old.level new.level }

end Pin

/-! ## The registers -/

structure Device where
  regs : Nat → BitVec 32
  latch : Nat → Bool
  drive : Nat → Bool
  event : Nat → Bool
  pad : Nat → BitVec 2

namespace Device

/-- The bit of a pin in two registers of one bit for each pin. -/
def flag (d : Device) (base g : Nat) : Bool := (d.regs (base + g / 32)).getLsbD (g % 32)

/-- A board of the fourth generation has other registers for the resistors. -/
def is2711 (d : Device) : Bool := d.regs PULLUPDN_OFFSET_2711_3 ≠ 0x6770696f

def pull (d : Device) (g : Nat) : Pull :=
  if d.is2711 then
    .of2711 ((d.regs (PULLUPDN_OFFSET_2711_0 + g / 16)).extractLsb' (g % 16 * 2) 2)
  else .ofControl (d.pad g)

def pin (d : Device) (g : Nat) : Pin where
  mode := (d.regs (FSEL_OFFSET + g / 10)).extractLsb' (g % 10 * 3) 3
  latch := d.latch g
  drive := d.drive g
  event := d.event g
  rising := d.flag RISING_ED_OFFSET g
  falling := d.flag FALLING_ED_OFFSET g
  high := d.flag HIGH_DETECT_OFFSET g
  low := d.flag LOW_DETECT_OFFSET g
  pull := d.pull g

/-- The flags that are up after a change. -/
def detect (old new : Device) : Device :=
  { new with event := fun g => ((old.pin g).detect (new.pin g)).event }

/-- The word of a bank of 32 pins. -/
def word (f : Nat → Bool) (bank : Nat) : BitVec 32 := BitVec.ofFnLE fun i => f (32 * bank + i)

def read (d : Device) (offset : Nat) : BitVec 32 :=
  if offset = PINLEVEL_OFFSET ∨ offset = PINLEVEL_OFFSET + 1 then
    word (fun g => (d.pin g).level) (offset - PINLEVEL_OFFSET)
  else if offset = EVENT_DETECT_OFFSET ∨ offset = EVENT_DETECT_OFFSET + 1 then
    word d.event (offset - EVENT_DETECT_OFFSET)
  else d.regs offset

/-- The pins of a bank whose bit is up in a word. -/
def picked (w : BitVec 32) (bank g : Nat) : Bool := g / 32 = bank && w.getLsbD (g % 32)

/-- Ones set or clear a latch, clear an event flag, or clock the control word into the pads. -/
def store (d : Device) (offset : Nat) (w : BitVec 32) : Device :=
  if offset = SET_OFFSET ∨ offset = SET_OFFSET + 1 then
    { d with latch := fun g => d.latch g || picked w (offset - SET_OFFSET) g }
  else if offset = CLR_OFFSET ∨ offset = CLR_OFFSET + 1 then
    { d with latch := fun g => d.latch g && !picked w (offset - CLR_OFFSET) g }
  else if offset = EVENT_DETECT_OFFSET ∨ offset = EVENT_DETECT_OFFSET + 1 then
    { d with event := fun g => d.event g && !picked w (offset - EVENT_DETECT_OFFSET) g }
  else if offset = PULLUPDNCLK_OFFSET ∨ offset = PULLUPDNCLK_OFFSET + 1 then
    { d with pad := fun g => if picked w (offset - PULLUPDNCLK_OFFSET) g then
        (d.regs PULLUPDN_OFFSET).setWidth 2 else d.pad g }
  else { d with regs := Function.update d.regs offset w }

def write (d : Device) (offset : Nat) (w : BitVec 32) : Device := d.detect (d.store offset w)

/-- The outside puts a level on a pin. -/
def input (d : Device) (g : Nat) (b : Bool) : Device :=
  d.detect { d with drive := Function.update d.drive g b }

end Device

end KernelBasecamp.Gpio
