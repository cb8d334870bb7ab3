/-
  Runs of the calls of c_gpio.c, in any order and on any pins, with levels that come and go.

  * `pin_run`: the registers refine the machines of the pins, each of which sees its share.
  * `readings_run`: what the reading calls and `get_key_status` tell of a pin comes from the calls
    for that pin alone.
  * `pullupdn_run`: the resistor that is read back has the codes for up and down exchanged.
-/
import KernelBasecamp.Gpio.Pulls

namespace KernelBasecamp.Gpio

open Lib

variable {d : Device} {g h : Nat} {fourth : Bool}

/-! ## Shares -/

open Device in
/-- What a call does to the pin `g`. -/
def share (d : Device) (g : Nat) : Action → List PinAction
  | .clear_event_detect h => bank g h .clear
  | .eventdetected h => if d.event h then bank g h .clear else []
  | .set_rising_event h enable => own g h (.rising (enable ≠ 0)) ++ bank g h .clear
  | .set_falling_event h enable =>
      (if enable ≠ 0 then bank g h (.falling (g = h)) else own g h (.falling false)) ++
        bank g h .clear
  | .set_high_event h enable => own g h (.high (enable ≠ 0)) ++ bank g h .clear
  | .set_low_event h enable => own g h (.low (enable ≠ 0)) ++ bank g h .clear
  | .set_pullupdn h pud => own g h (.pull (pullOf pud))
  | .setup_gpio h direction pud =>
      own g h (.pull (pullOf pud)) ++ own g h (.mode (modeOf direction))
  | .output_gpio h value => own g h (.latch (value ≠ 0))
  | .input h b => own g h (.drive b)

/-- What a run does to the pin `g`. -/
def trace (g : Nat) : Device → List Action → List PinAction
  | _, [] => []
  | d, a :: actions => share d g a ++ trace g (d.step a) actions

namespace Device

theorem Sound.clear_event_detect (hd : Sound fourth d) (hh : h < 54) :
    Sound fourth (d.clear_event_detect h) := by
  have hfar : PULLUPDN_OFFSET_2711_3 ≠ EVENT_DETECT_OFFSET + h / 32 := by
    unfold PULLUPDN_OFFSET_2711_3 EVENT_DETECT_OFFSET
    omega
  exact (hd.write hfar _).write hfar _

theorem Sound.set_event {base : Nat} (hbase : base ∈ watches) (hd : Sound fourth d) (hh : h < 54)
    (enable : Int) : Sound fourth (set_event base d h enable) := by
  have hbounds := watch_bounds hbase
  have hfar : PULLUPDN_OFFSET_2711_3 ≠ base + h / 32 := by
    unfold PULLUPDN_OFFSET_2711_3
    omega
  unfold Device.set_event
  dsimp only
  split
  · exact (hd.write hfar _).clear_event_detect hh
  · exact (hd.write hfar _).clear_event_detect hh

theorem Sound.set_falling_event (hd : Sound fourth d) (hh : h < 54) (enable : Int) :
    Sound fourth (d.set_falling_event h enable) := by
  have hfar : PULLUPDN_OFFSET_2711_3 ≠ FALLING_ED_OFFSET + h / 32 := by
    unfold PULLUPDN_OFFSET_2711_3 FALLING_ED_OFFSET
    omega
  unfold Device.set_falling_event
  dsimp only
  split
  · exact ((hd.write hfar _).write hfar _).clear_event_detect hh
  · exact (hd.write hfar _).clear_event_detect hh

theorem Sound.setup_gpio (hd : Sound fourth d) (hh : h < 54) (direction pud : Int) :
    Sound fourth (d.setup_gpio h direction pud) := by
  have hfar : PULLUPDN_OFFSET_2711_3 ≠ FSEL_OFFSET + h / 10 := by
    unfold PULLUPDN_OFFSET_2711_3 FSEL_OFFSET
    omega
  have hpull := (pin_set_pullupdn hd hh hh pud).1
  unfold Device.setup_gpio
  dsimp only
  split
  · exact hpull.write hfar _
  · exact hpull.write hfar _

theorem Sound.step (hd : Sound fourth d) {a : Action} (ha : a.gpio < 54) :
    Sound fourth (d.step a) := by
  cases a with
  | clear_event_detect h => exact hd.clear_event_detect ha
  | eventdetected h =>
      unfold Device.step eventdetected
      dsimp only
      split
      · exact hd.clear_event_detect ha
      · exact hd
  | set_rising_event h enable => exact hd.set_event (by decide) ha enable
  | set_falling_event h enable => exact hd.set_falling_event ha enable
  | set_high_event h enable => exact hd.set_event (by decide) ha enable
  | set_low_event h enable => exact hd.set_event (by decide) ha enable
  | set_pullupdn h pud => exact (pin_set_pullupdn hd ha ha pud).1
  | setup_gpio h direction pud => exact hd.setup_gpio ha direction pud
  | output_gpio h value =>
      have hset : PULLUPDN_OFFSET_2711_3 ≠ SET_OFFSET + h / 32 := by
        unfold PULLUPDN_OFFSET_2711_3 SET_OFFSET
        change h < 54 at ha
        omega
      have hclr : PULLUPDN_OFFSET_2711_3 ≠ CLR_OFFSET + h / 32 := by
        unfold PULLUPDN_OFFSET_2711_3 CLR_OFFSET
        change h < 54 at ha
        omega
      unfold Device.step output_gpio
      dsimp only
      split
      · exact hd.write hset _
      · exact hd.write hclr _
  | input h b => exact ⟨hd.chip, hd.differs, fun g _ => settled_input d h b g⟩

/-- A call does to each pin its share. -/
theorem pin_step (hd : Sound fourth d) (hg : g < 54) {a : Action} (ha : a.gpio < 54) :
    (d.step a).pin g = (d.pin g).run (share d g a) := by
  have hp := hd.settled g hg
  cases a with
  | clear_event_detect h => exact pin_clear_event_detect hp ha
  | eventdetected h => exact pin_eventdetected hp ha
  | set_rising_event h enable => exact pin_set_event (by decide) hp hg ha enable
  | set_falling_event h enable => exact pin_set_falling_event hp hg ha enable
  | set_high_event h enable => exact pin_set_event (by decide) hp hg ha enable
  | set_low_event h enable => exact pin_set_event (by decide) hp hg ha enable
  | set_pullupdn h pud => exact (pin_set_pullupdn hd hg ha pud).2
  | setup_gpio h direction pud =>
      change h < 54 at ha
      obtain ⟨hsound, hpull⟩ := pin_set_pullupdn hd hg ha pud
      have hmode := pin_write_mode (hsound.settled g hg) ha direction
      unfold share
      rw [Pin.run_append, ← hpull]
      exact hmode
  | output_gpio h value => exact pin_output_gpio hp ha value
  | input h b => exact pin_input hp h b

theorem Sound.run (hd : Sound fourth d) {actions : List Action}
    (hactions : ∀ a ∈ actions, a.gpio < 54) : Sound fourth (d.run actions) := by
  induction actions generalizing d with
  | nil => exact hd
  | cons a actions ih =>
      obtain ⟨ha, hrest⟩ := List.forall_mem_cons.mp hactions
      exact ih (hd.step ha) hrest

/-- A board after it is switched on, with all pins low. -/
def reset (fourth : Bool) : Device where
  regs r := if r = PULLUPDN_OFFSET_2711_3 ∧ fourth = false then 0x6770696f else 0
  latch _ := false
  drive _ := false
  event _ := false
  pad _ := 0

theorem sound_reset (fourth : Bool) : Sound fourth (reset fourth) := by
  refine ⟨by cases fourth <;> decide, ?_, fun g hg => ?_⟩
  · rintro rfl
    exact ⟨13, by decide, by decide, by decide⟩
  · have hflag : ∀ base ∈ watches, (reset fourth).flag base g = false := by
      intro base hbase
      have hbounds := watch_bounds hbase
      have hreg : ¬ (base + g / 32 = PULLUPDN_OFFSET_2711_3 ∧ fourth = false) := by
        unfold PULLUPDN_OFFSET_2711_3
        omega
      unfold flag reset
      dsimp only
      rw [if_neg hreg]
      exact BitVec.getLsbD_zero
    intro hsees
    have hrising : ((reset fourth).pin g).rising = false := hflag _ (by decide)
    have hfalling : ((reset fourth).pin g).falling = false := hflag _ (by decide)
    have hhigh : ((reset fourth).pin g).high = false := hflag _ (by decide)
    have hlow : ((reset fourth).pin g).low = false := hflag _ (by decide)
    unfold Pin.sees at hsees
    rw [hrising, hfalling, hhigh, hlow] at hsees
    exact absurd hsees Bool.false_ne_true

/-- The registers refine the machines of the pins. -/
theorem pin_run (hd : Sound fourth d) {actions : List Action}
    (hactions : ∀ a ∈ actions, a.gpio < 54) (hg : g < 54) :
    (d.run actions).pin g = (d.pin g).run (trace g d actions) := by
  induction actions generalizing d with
  | nil => rfl
  | cons a actions ih =>
      obtain ⟨ha, hrest⟩ := List.forall_mem_cons.mp hactions
      unfold trace
      rw [Pin.run_append, ← pin_step hd hg ha]
      exact ih (hd.step ha) hrest

/-- The share of pin 18 when pin 23 is set up for falling edges. -/
theorem pin_run_neighbour :
    ((reset false).run [.setup_gpio 23 INPUT PUD_UP, .set_falling_event 23 1]).pin 18 =
      ((reset false).pin 18).run (trace 18 (reset false) [.setup_gpio 23 INPUT PUD_UP,
        .set_falling_event 23 1]) :=
  pin_run (sound_reset false) (by decide) (by decide)

end Device

/-! ## Settings -/

/-- What is set for a pin, and the level that is put on it. -/
structure Settings where
  mode : BitVec 3
  latch : Bool
  drive : Bool
  rising : Bool
  high : Bool
  low : Bool
  pull : Pull
  deriving DecidableEq, Repr

def Pin.settings (p : Pin) : Settings :=
  ⟨p.mode, p.latch, p.drive, p.rising, p.high, p.low, p.pull⟩

namespace Settings

def level (s : Settings) : Bool := if s.mode = 1 then s.latch else s.drive

/-- What a call sets for its own pin. -/
def apply (s : Settings) : Action → Settings
  | .set_rising_event _ enable => { s with rising := enable ≠ 0 }
  | .set_high_event _ enable => { s with high := enable ≠ 0 }
  | .set_low_event _ enable => { s with low := enable ≠ 0 }
  | .set_pullupdn _ pud => { s with pull := pullOf pud }
  | .setup_gpio _ direction pud => { s with pull := pullOf pud, mode := modeOf direction }
  | .output_gpio _ value => { s with latch := value ≠ 0 }
  | .input _ b => { s with drive := b }
  | .clear_event_detect _ | .eventdetected _ | .set_falling_event _ _ => s

end Settings

namespace Device

theorem settings_own (p : Pin) (g h : Nat) (a : PinAction) :
    (p.run (own g h a)).settings = if g = h then (p.set a).settings else p.settings := by
  rw [run_own]
  split <;> rfl

theorem settings_clear (p : Pin) (g h : Nat) : (p.run (bank g h .clear)).settings = p.settings := by
  rw [run_bank]
  split <;> rfl

theorem settings_falling (p : Pin) (g h : Nat) (enable : Int) :
    (p.run (if enable ≠ 0 then bank g h (.falling (g = h))
      else own g h (.falling false))).settings = p.settings := by
  split
  · rw [run_bank]
    split <;> rfl
  · rw [settings_own]
    split <;> rfl

theorem settings_step (hd : Sound fourth d) (hg : g < 54) {a : Action} (ha : a.gpio < 54) :
    ((d.step a).pin g).settings =
      if g = a.gpio then (d.pin g).settings.apply a else (d.pin g).settings := by
  rw [pin_step hd hg ha]
  generalize d.pin g = p
  cases a with
  | clear_event_detect h => exact (settings_clear p g h).trans (ite_self _).symm
  | eventdetected h =>
      change (p.run (if d.event h then bank g h .clear else [])).settings = _
      by_cases hevent : d.event h = true
      · rw [if_pos hevent, settings_clear]
        exact (ite_self _).symm
      · rw [if_neg hevent]
        exact (ite_self _).symm
  | set_falling_event h enable =>
      unfold share
      rw [Pin.run_append, settings_clear, settings_falling]
      exact (ite_self _).symm
  | set_rising_event h enable | set_high_event h enable | set_low_event h enable =>
      unfold share
      rw [Pin.run_append, settings_clear, settings_own]
      rfl
  | set_pullupdn h pud | output_gpio h value | input h b => exact settings_own p g h _
  | setup_gpio h direction pud =>
      unfold share
      change _ = if g = h then _ else _
      rw [Pin.run_append, run_own, run_own]
      split <;> rfl

/-- What is set for a pin, the calls for that pin have set. -/
theorem settings_run (hd : Sound fourth d) {actions : List Action}
    (hactions : ∀ a ∈ actions, a.gpio < 54) (hg : g < 54) :
    ((d.run actions).pin g).settings =
      (actions.filter (·.gpio = g)).foldl Settings.apply (d.pin g).settings := by
  induction actions generalizing d with
  | nil => rfl
  | cons a actions ih =>
      obtain ⟨ha, hrest⟩ := List.forall_mem_cons.mp hactions
      have hnext := ih (hd.step ha) hrest
      rw [settings_step hd hg ha] at hnext
      by_cases hgpio : g = a.gpio
      · rw [List.filter_cons_of_pos (by simpa using hgpio.symm), List.foldl_cons]
        rwa [if_pos hgpio] at hnext
      · rw [List.filter_cons_of_neg (by simpa using Ne.symm hgpio)]
        rwa [if_neg hgpio] at hnext

/-! ## Readings -/

theorem read_level (hg : g < 54) :
    d.read (PINLEVEL_OFFSET + g / 32) = word (fun g => (d.pin g).level) (g / 32) := by
  have hoff : PINLEVEL_OFFSET + g / 32 = PINLEVEL_OFFSET ∨
      PINLEVEL_OFFSET + g / 32 = PINLEVEL_OFFSET + 1 := by omega
  unfold read
  rw [if_pos hoff, Nat.add_sub_cancel_left]

theorem input_gpio_ne_zero (hg : g < 54) :
    d.input_gpio g ≠ 0#32 ↔ (d.pin g).settings.level = true := by
  unfold input_gpio
  rw [read_level hg, and_one_shiftLeft_ne_zero (Nat.mod_lt g (by decide)), getLsbD_word]
  rfl

theorem get_key_status_eq (hg : g < 54) :
    d.get_key_status g = if (d.pin g).settings.level then 0 else 1 := by
  have hlevel := input_gpio_ne_zero (d := d) hg
  unfold get_key_status
  by_cases hzero : d.input_gpio g = 0#32
  · rw [if_pos hzero, if_neg (mt hlevel.mpr (not_not_intro hzero))]
  · rw [if_neg hzero, if_pos (hlevel.mp hzero)]

/-- A small word is the number of its low bits. -/
theorem toInt_setWidth {k : Nat} (v : BitVec k) (hk : k < 32) :
    (v.setWidth 32).toInt = v.toNat := by
  have hlt : v.toNat < 2 ^ 31 :=
    Nat.lt_of_lt_of_le v.isLt (Nat.pow_le_pow_right (by decide) (by omega))
  have hnat : (v.setWidth 32).toNat = v.toNat := by
    rw [BitVec.toNat_setWidth, Nat.mod_eq_of_lt (by omega)]
  rw [BitVec.toInt_eq_toNat_of_lt (by omega), hnat]

theorem gpio_function_eq (hg : g < 54) :
    d.gpio_function g = (d.pin g).settings.mode.toNat := by
  have hplain : Plain (FSEL_OFFSET + g / 10) := by
    have hlt : g / 10 < 6 := by omega
    unfold FSEL_OFFSET
    interval_cases g / 10 <;> decide
  have hfield : ∀ w : BitVec 32, w.sshiftRight (g % 10 * 3) &&& 7#32 =
      (w.extractLsb' (g % 10 * 3) 3).setWidth 32 := by
    intro w
    refine BitVec.eq_of_getLsbD_eq fun i hi => ?_
    have hmask : (7#32).getLsbD i = decide (i < 3) := by interval_cases i <;> rfl
    rw [BitVec.getLsbD_and, BitVec.getLsbD_sshiftRight, BitVec.getLsbD_setWidth,
      BitVec.getLsbD_extractLsb', hmask]
    by_cases hlow : i < 3
    · rw [if_pos (by omega)]
      simp [hlow, hi]
    · simp [hlow]
  unfold gpio_function
  dsimp only
  rw [read_plain hplain, hfield, toInt_setWidth _ (by decide)]
  rfl

/-- The codes that `get_pullupdn` returns on the fourth generation. -/
def pullCode : Pull → Int
  | .off => 0
  | .up => 1
  | .down => 2
  | .reserved => 3

theorem pullCode_of2711 (code : BitVec 2) : pullCode (.of2711 code) = code.toNat := by
  revert code
  decide

theorem get_pullupdn_eq (hd : Sound fourth d) (hg : g < 54) :
    d.get_pullupdn g = if fourth then pullCode (d.pin g).settings.pull else 0 := by
  unfold get_pullupdn
  rw [read_plain (by decide)]
  cases fourth with
  | false => exact if_neg (of_decide_eq_false hd.chip)
  | true =>
      have hplain : Plain (PULLUPDN_OFFSET_2711_0 + g / 16) := by
        have hlt : g / 16 < 4 := by omega
        unfold PULLUPDN_OFFSET_2711_0
        interval_cases g / 16 <;> decide
      have hshift : (g &&& 0xf) <<< 1 = g % 16 * 2 := by
        rw [Nat.shiftLeft_eq]
        exact congrArg (· * 2) (Nat.and_two_pow_sub_one_eq_mod g 4)
      have hreg : g >>> 4 = g / 16 := Nat.shiftRight_eq_div_pow g 4
      have hfield : ∀ w : BitVec 32, (w &&& 3#32 <<< (g % 16 * 2)) >>> (g % 16 * 2) =
          (w.extractLsb' (g % 16 * 2) 2).setWidth 32 := by
        intro w
        refine BitVec.eq_of_getLsbD_eq fun i hi => ?_
        have hmask : (3#32).getLsbD i = decide (i < 2) := by interval_cases i <;> rfl
        rw [BitVec.getLsbD_ushiftRight, BitVec.getLsbD_and, BitVec.getLsbD_shiftLeft,
          BitVec.getLsbD_setWidth, BitVec.getLsbD_extractLsb', Nat.add_sub_cancel_left, hmask]
        by_cases hlow : i < 2
        · simp [hlow, hi, show g % 16 * 2 + i < 32 by omega]
        · simp [hlow]
      have hpull : (d.pin g).settings.pull = _ := pull_of_2711 hd.chip g
      rw [if_pos (of_decide_eq_true hd.chip), if_pos rfl, hpull, pullCode_of2711]
      dsimp only
      rw [hshift, hreg, read_plain hplain, hfield, toInt_setWidth _ (by decide)]

/-- What the program reads of a pin, in any order of calls, comes from the calls for that pin. -/
theorem readings_run (hd : Sound fourth d) {actions : List Action}
    (hactions : ∀ a ∈ actions, a.gpio < 54) (hg : g < 54) {s : Settings}
    (hs : s = (actions.filter (·.gpio = g)).foldl Settings.apply (d.pin g).settings) :
    (d.run actions).gpio_function g = s.mode.toNat ∧
      ((d.run actions).input_gpio g ≠ 0#32 ↔ s.level = true) ∧
      (d.run actions).get_key_status g = (if s.level then 0 else 1) ∧
      (d.run actions).get_pullupdn g = if fourth then pullCode s.pull else 0 := by
  rw [hs, ← settings_run hd hactions hg]
  exact ⟨gpio_function_eq hg, input_gpio_ne_zero hg, get_key_status_eq hg,
    get_pullupdn_eq (hd.run hactions) hg⟩

/-- A key that is pressed, while an output next to it changes. -/
theorem readings_run_key :
    ((reset false).run [.setup_gpio 18 INPUT PUD_UP, .input 18 true, .setup_gpio 17 OUTPUT PUD_OFF,
      .output_gpio 17 1, .input 18 false]).get_key_status 18 = 1 :=
  (readings_run (sound_reset false) (by decide) (g := 18) (by decide) rfl).2.2.1

end Device

/-! ## Resistors -/

/-- The resistor that a call sets for the pin. -/
def Action.pud (g : Nat) : Action → Option Int
  | .set_pullupdn h pud => if h = g then some pud else none
  | .setup_gpio h _ pud => if h = g then some pud else none
  | _ => none

theorem Settings.pull_apply (s : Settings) {a : Action} (ha : a.gpio = g) :
    (s.apply a).pull = ((a.pud g).map pullOf).getD s.pull := by
  cases a with
  | set_pullupdn h pud =>
      have hpud : (Action.set_pullupdn h pud).pud g = some pud := if_pos ha
      rw [hpud]
      rfl
  | setup_gpio h direction pud =>
      have hpud : (Action.setup_gpio h direction pud).pud g = some pud := if_pos ha
      rw [hpud]
      rfl
  | _ => rfl

theorem Settings.pull_foldl (s : Settings) {actions : List Action}
    (hactions : ∀ a ∈ actions, a.gpio = g) (hnone : ∀ a ∈ actions, a.pud g = none) :
    (actions.foldl Settings.apply s).pull = s.pull := by
  induction actions generalizing s with
  | nil => rfl
  | cons a actions ih =>
      obtain ⟨ha, hrest⟩ := List.forall_mem_cons.mp hactions
      obtain ⟨hpud, hnone⟩ := List.forall_mem_cons.mp hnone
      rw [List.foldl_cons, ih _ hrest hnone, s.pull_apply ha, hpud]
      rfl

theorem gpio_of_pud {a : Action} {pud : Int} (ha : a.pud g = some pud) : a.gpio = g := by
  cases a with
  | set_pullupdn h pud | setup_gpio h direction pud => exact (Option.ite_none_right_eq_some.mp ha).1
  | _ => cases ha

namespace Device

/-- On the fourth generation the resistor that was set last is read back with the codes for up
    and down exchanged, so only the code for none is read back as it was set. -/
theorem pullupdn_run (hd : Sound true d) {before after : List Action} {a : Action} {pud : Int}
    (hgpio : ∀ b ∈ before ++ a :: after, b.gpio < 54) (ha : a.pud g = some pud)
    (hafter : ∀ b ∈ after, b.pud g = none) :
    (d.run (before ++ a :: after)).get_pullupdn g =
        (if pud = PUD_DOWN then PUD_UP else if pud = PUD_UP then PUD_DOWN else PUD_OFF) ∧
      ((d.run (before ++ a :: after)).get_pullupdn g = pud ↔ pud = PUD_OFF) := by
  have hown : a.gpio = g := gpio_of_pud ha
  have hg : g < 54 := hown ▸ hgpio a (List.mem_append_right _ List.mem_cons_self)
  have hpull : ((d.run (before ++ a :: after)).pin g).settings.pull = pullOf pud := by
    rw [settings_run hd hgpio hg, List.filter_append, List.foldl_append,
      List.filter_cons_of_pos (by simpa using hown), List.foldl_cons, Settings.pull_foldl (g := g),
      Settings.pull_apply _ hown, ha]
    · rfl
    · intro b hb
      simpa using (List.mem_filter.mp hb).2
    · exact fun b hb => hafter b (List.mem_filter.mp hb).1
  have hread : (d.run (before ++ a :: after)).get_pullupdn g =
      if pud = PUD_DOWN then PUD_UP else if pud = PUD_UP then PUD_DOWN else PUD_OFF := by
    rw [get_pullupdn_eq (hd.run hgpio) hg, if_pos rfl, hpull]
    unfold pullOf
    split_ifs <;> rfl
  refine ⟨hread, ?_⟩
  rw [hread]
  unfold PUD_DOWN PUD_UP PUD_OFF
  split_ifs <;> omega

/-- A key with a resistor to the supply, next to another pin. -/
theorem pullupdn_run_key :
    ((reset true).run
      ([] ++ .setup_gpio 18 INPUT PUD_UP :: [.set_pullupdn 19 PUD_DOWN])).get_pullupdn 18 =
        PUD_DOWN := by
  have hgpio : ∀ b ∈ [] ++ Action.setup_gpio 18 INPUT PUD_UP :: [Action.set_pullupdn 19 PUD_DOWN],
      b.gpio < 54 := by decide
  have hafter : ∀ b ∈ [Action.set_pullupdn 19 PUD_DOWN], b.pud 18 = none := by decide
  exact (pullupdn_run (sound_reset true) hgpio rfl hafter).1

end Device

end KernelBasecamp.Gpio
