/-
  c_gpio.c and keys.c (task04): the calls that reach the pins through the registers.

  A pin is a natural number. `setup`, which maps the registers, and the waits are left out, and a
  call takes no time.
-/
import KernelBasecamp.Gpio.Registers

namespace KernelBasecamp.Gpio

open Lib

def INPUT : Int := 1
def OUTPUT : Int := 0
def PUD_OFF : Int := 0
def PUD_DOWN : Int := 1
def PUD_UP : Int := 2

namespace Device

/-! ## Events -/

def clear_event_detect (d : Device) (gpio : Nat) : Device :=
  let offset := EVENT_DETECT_OFFSET + gpio / 32
  let shift := gpio % 32
  let d := d.write offset (d.read offset ||| 1#32 <<< shift)
  d.write offset 0#32

def eventdetected (d : Device) (gpio : Nat) : BitVec 32 × Device :=
  let offset := EVENT_DETECT_OFFSET + gpio / 32
  let bit := 1#32 <<< (gpio % 32)
  let value := d.read offset &&& bit
  (value, if value ≠ 0#32 then d.clear_event_detect gpio else d)

/-- The three calls that switch one bit and clear the events. -/
def set_event (base : Nat) (d : Device) (gpio : Nat) (enable : Int) : Device :=
  let offset := base + gpio / 32
  let shift := gpio % 32
  let d :=
    if enable ≠ 0 then d.write offset (d.read offset ||| 1#32 <<< shift)
    else d.write offset (d.read offset &&& ~~~(1#32 <<< shift))
  d.clear_event_detect gpio

def set_rising_event : Device → Nat → Int → Device := set_event RISING_ED_OFFSET

def set_high_event : Device → Nat → Int → Device := set_event HIGH_DETECT_OFFSET

def set_low_event : Device → Nat → Int → Device := set_event LOW_DETECT_OFFSET

/-- The second store of the first branch takes the place of the first one. -/
def set_falling_event (d : Device) (gpio : Nat) (enable : Int) : Device :=
  let offset := FALLING_ED_OFFSET + gpio / 32
  let shift := gpio % 32
  let d :=
    if enable ≠ 0 then
      let d := d.write offset (d.read offset ||| 1#32 <<< shift)
      d.write offset (1#32 <<< shift)
    else d.write offset (d.read offset &&& ~~~(1#32 <<< shift))
  d.clear_event_detect gpio

/-! ## Resistors -/

def set_pullupdn (d : Device) (gpio : Nat) (pud : Int) : Device :=
  if d.read PULLUPDN_OFFSET_2711_3 ≠ 0x6770696f then
    let pullreg := PULLUPDN_OFFSET_2711_0 + gpio >>> 4
    let pullshift := (gpio &&& 0xf) <<< 1
    let pull : BitVec 32 :=
      if pud = PUD_OFF then 0 else if pud = PUD_UP then 1 else if pud = PUD_DOWN then 2 else 0
    let pullbits := d.read pullreg
    let pullbits := pullbits &&& ~~~(3#32 <<< pullshift)
    let pullbits := pullbits ||| pull <<< pullshift
    d.write pullreg pullbits
  else
    let clk_offset := PULLUPDNCLK_OFFSET + gpio / 32
    let shift := gpio % 32
    let d :=
      if pud = PUD_DOWN then
        d.write PULLUPDN_OFFSET ((d.read PULLUPDN_OFFSET &&& ~~~3#32) ||| 1#32)
      else if pud = PUD_UP then
        d.write PULLUPDN_OFFSET ((d.read PULLUPDN_OFFSET &&& ~~~3#32) ||| 2#32)
      else d.write PULLUPDN_OFFSET (d.read PULLUPDN_OFFSET &&& ~~~3#32)
    let d := d.write clk_offset (1#32 <<< shift)
    let d := d.write PULLUPDN_OFFSET (d.read PULLUPDN_OFFSET &&& ~~~3#32)
    d.write clk_offset 0#32

def get_pullupdn (d : Device) (gpio : Nat) : Int :=
  if d.read PULLUPDN_OFFSET_2711_3 ≠ 0x6770696f then
    let pullreg := PULLUPDN_OFFSET_2711_0 + gpio >>> 4
    let pullshift := (gpio &&& 0xf) <<< 1
    let pullbits := d.read pullreg
    let pullbits := pullbits &&& 3#32 <<< pullshift
    (pullbits >>> pullshift).toInt
  else 0

/-! ## Levels -/

def setup_gpio (d : Device) (gpio : Nat) (direction pud : Int) : Device :=
  let offset := FSEL_OFFSET + gpio / 10
  let shift := gpio % 10 * 3
  let d := d.set_pullupdn gpio pud
  if direction = OUTPUT then
    d.write offset ((d.read offset &&& ~~~(7#32 <<< shift)) ||| 1#32 <<< shift)
  else d.write offset (d.read offset &&& ~~~(7#32 <<< shift))

def gpio_function (d : Device) (gpio : Nat) : Int :=
  let offset := FSEL_OFFSET + gpio / 10
  let shift := gpio % 10 * 3
  ((d.read offset).sshiftRight shift &&& 7#32).toInt

def output_gpio (d : Device) (gpio : Nat) (value : Int) : Device :=
  let offset := if value ≠ 0 then SET_OFFSET + gpio / 32 else CLR_OFFSET + gpio / 32
  d.write offset (1#32 <<< (gpio % 32))

def input_gpio (d : Device) (gpio : Nat) : BitVec 32 :=
  d.read (PINLEVEL_OFFSET + gpio / 32) &&& 1#32 <<< (gpio % 32)

def init_key (d : Device) (id : Nat) : Device := d.setup_gpio id INPUT PUD_UP

def get_key_status (d : Device) (id : Nat) : Int := if d.input_gpio id = 0#32 then 1 else 0

end Device

/-! ## Runs -/

/-- A call of the program, or a level that the outside puts on a pin. -/
inductive Action
  | clear_event_detect (gpio : Nat)
  | eventdetected (gpio : Nat)
  | set_rising_event (gpio : Nat) (enable : Int)
  | set_falling_event (gpio : Nat) (enable : Int)
  | set_high_event (gpio : Nat) (enable : Int)
  | set_low_event (gpio : Nat) (enable : Int)
  | set_pullupdn (gpio : Nat) (pud : Int)
  | setup_gpio (gpio : Nat) (direction pud : Int)
  | output_gpio (gpio : Nat) (value : Int)
  | input (gpio : Nat) (b : Bool)

def Action.gpio : Action → Nat
  | .clear_event_detect gpio => gpio
  | .eventdetected gpio => gpio
  | .set_rising_event gpio _ => gpio
  | .set_falling_event gpio _ => gpio
  | .set_high_event gpio _ => gpio
  | .set_low_event gpio _ => gpio
  | .set_pullupdn gpio _ => gpio
  | .setup_gpio gpio _ _ => gpio
  | .output_gpio gpio _ => gpio
  | .input gpio _ => gpio

def Device.step (d : Device) : Action → Device
  | .clear_event_detect gpio => d.clear_event_detect gpio
  | .eventdetected gpio => (d.eventdetected gpio).2
  | .set_rising_event gpio enable => d.set_rising_event gpio enable
  | .set_falling_event gpio enable => d.set_falling_event gpio enable
  | .set_high_event gpio enable => d.set_high_event gpio enable
  | .set_low_event gpio enable => d.set_low_event gpio enable
  | .set_pullupdn gpio pud => d.set_pullupdn gpio pud
  | .setup_gpio gpio direction pud => d.setup_gpio gpio direction pud
  | .output_gpio gpio value => d.output_gpio gpio value
  | .input gpio b => d.input gpio b

def Device.run (d : Device) (actions : List Action) : Device := actions.foldl Device.step d

end KernelBasecamp.Gpio
