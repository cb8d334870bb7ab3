/-
  What the calls of c_gpio.c come to for one pin, but for the resistors.

  A pin is a machine of its own (`Pin.step`), and of a call each pin sees its share: what is done
  to the pin alone (`own`) and what is done to its bank (`bank`). One lemma says what a store does
  to the pins, for each kind of register, and one what a call does (`pin_set_event` and so on).
-/
import KernelBasecamp.Gpio.Calls

namespace KernelBasecamp.Gpio

open Lib

/-! ## The machine of a pin -/

inductive PinAction
  | mode (m : BitVec 3)
  | latch (b : Bool)
  | drive (b : Bool)
  | rising (b : Bool)
  | falling (b : Bool)
  | high (b : Bool)
  | low (b : Bool)
  | pull (q : Pull)
  | clear

namespace Pin

def set (p : Pin) : PinAction → Pin
  | .mode m => { p with mode := m }
  | .latch b => { p with latch := b }
  | .drive b => { p with drive := b }
  | .rising b => { p with rising := b }
  | .falling b => { p with falling := b }
  | .high b => { p with high := b }
  | .low b => { p with low := b }
  | .pull q => { p with pull := q }
  | .clear => { p with event := false }

def step (p : Pin) (a : PinAction) : Pin := p.detect (p.set a)

def run (p : Pin) (as : List PinAction) : Pin := as.foldl step p

theorem run_append (p : Pin) (as as' : List PinAction) : p.run (as ++ as') = (p.run as).run as' :=
  List.foldl_append

/-- A level that the pin is watched for has set its flag. -/
def Settled (p : Pin) : Prop := p.sees p.level p.level = true → p.event = true

theorem detect_self {p : Pin} (hp : p.Settled) : p.detect p = p := by
  have hevent : (p.event || p.sees p.level p.level) = p.event := by
    cases hsees : p.sees p.level p.level with
    | false => exact Bool.or_false _
    | true => rw [hp hsees, Bool.true_or]
  unfold detect
  rw [hevent]

theorem settled_detect (old new : Pin) : (old.detect new).Settled := by
  intro hsees
  change new.sees new.level new.level = true at hsees
  change (new.event || new.sees old.level new.level) = true
  unfold sees at hsees ⊢
  cases hnew : new.level <;> rw [hnew] at hsees <;> simp at hsees <;> simp [hsees]

end Pin

/-- The mode of a direction. -/
def modeOf (direction : Int) : BitVec 3 := if direction = OUTPUT then 1 else 0

namespace Device

variable {d : Device} {g h : Nat}

/-! ## One store -/

theorem pin_write (d : Device) (offset : Nat) (w : BitVec 32) (g : Nat) :
    (d.write offset w).pin g = (d.pin g).detect ((d.store offset w).pin g) := rfl

theorem settled_write (d : Device) (offset : Nat) (w : BitVec 32) (g : Nat) :
    ((d.write offset w).pin g).Settled := Pin.settled_detect (d.pin g) ((d.store offset w).pin g)

theorem settled_input (d : Device) (h : Nat) (b : Bool) (g : Nat) :
    ((d.input h b).pin g).Settled :=
  Pin.settled_detect (d.pin g) (({ d with drive := Function.update d.drive h b } : Device).pin g)

/-- A store that leaves a pin alone. -/
theorem pin_write_of_same {offset : Nat} {w : BitVec 32} (hp : (d.pin g).Settled)
    (hsame : (d.store offset w).pin g = d.pin g) : (d.write offset w).pin g = d.pin g := by
  rw [pin_write, hsame, Pin.detect_self hp]

/-- The registers that just hold their word. -/
def Plain (offset : Nat) : Prop :=
  offset ∉ [SET_OFFSET, SET_OFFSET + 1, CLR_OFFSET, CLR_OFFSET + 1, PINLEVEL_OFFSET,
    PINLEVEL_OFFSET + 1, EVENT_DETECT_OFFSET, EVENT_DETECT_OFFSET + 1, PULLUPDNCLK_OFFSET,
    PULLUPDNCLK_OFFSET + 1]

instance (offset : Nat) : Decidable (Plain offset) := inferInstanceAs (Decidable (_ ∉ _))

theorem store_plain {offset : Nat} (h : Plain offset) (d : Device) (w : BitVec 32) :
    d.store offset w = { d with regs := Function.update d.regs offset w } := by
  unfold Plain at h
  simp only [List.mem_cons, List.not_mem_nil, or_false, not_or] at h
  unfold store
  rw [if_neg (by omega), if_neg (by omega), if_neg (by omega), if_neg (by omega)]

theorem read_plain {offset : Nat} (h : Plain offset) (d : Device) :
    d.read offset = d.regs offset := by
  unfold Plain at h
  simp only [List.mem_cons, List.not_mem_nil, or_false, not_or] at h
  unfold read
  rw [if_neg (by omega), if_neg (by omega)]

theorem flag_update_of_ne {offset base : Nat} {w : BitVec 32} (h : base + g / 32 ≠ offset) :
    ({ d with regs := Function.update d.regs offset w } : Device).flag base g = d.flag base g := by
  unfold flag
  dsimp only
  rw [Function.update_of_ne h]

theorem pull_update_of_lt {offset : Nat} {w : BitVec 32} (h : offset < PULLUPDN_OFFSET_2711_0) :
    ({ d with regs := Function.update d.regs offset w } : Device).pull g = d.pull g := by
  unfold PULLUPDN_OFFSET_2711_0 at h
  have hchip : PULLUPDN_OFFSET_2711_3 ≠ offset := by unfold PULLUPDN_OFFSET_2711_3; omega
  have hcode : PULLUPDN_OFFSET_2711_0 + g / 16 ≠ offset := by unfold PULLUPDN_OFFSET_2711_0; omega
  unfold pull is2711
  simp only [Function.update_of_ne hchip, Function.update_of_ne hcode]

/-- The mode of one pin is replaced. -/
theorem pin_store_mode (hh : h < 54) (m : BitVec 3) :
    (d.store (FSEL_OFFSET + h / 10)
      (putField (d.regs (FSEL_OFFSET + h / 10)) (h % 10 * 3) m)).pin g =
        if g = h then (d.pin g).set (.mode m) else d.pin g := by
  have hplain : Plain (FSEL_OFFSET + h / 10) := by
    have hlt : h / 10 < 6 := by omega
    unfold FSEL_OFFSET
    interval_cases h / 10 <;> decide
  rw [store_plain hplain]
  unfold pin
  rw [flag_update_of_ne (by unfold FSEL_OFFSET RISING_ED_OFFSET; omega),
    flag_update_of_ne (by unfold FSEL_OFFSET FALLING_ED_OFFSET; omega),
    flag_update_of_ne (by unfold FSEL_OFFSET HIGH_DETECT_OFFSET; omega),
    flag_update_of_ne (by unfold FSEL_OFFSET LOW_DETECT_OFFSET; omega),
    pull_update_of_lt (by unfold FSEL_OFFSET PULLUPDN_OFFSET_2711_0; omega)]
  dsimp only
  by_cases hgh : g = h
  · subst hgh
    rw [Function.update_self, extract_putField _ _ (by omega), if_pos rfl]
    rfl
  · rw [if_neg hgh]
    by_cases hword : g / 10 = h / 10
    · rw [hword, Function.update_self, extract_putField_of_disjoint _ _ (by omega) (by omega)]
    · rw [Function.update_of_ne (by omega)]

/-- The registers that say what the pins are watched for. -/
def watches : List Nat :=
  [RISING_ED_OFFSET, FALLING_ED_OFFSET, HIGH_DETECT_OFFSET, LOW_DETECT_OFFSET]

/-- What a bit in one of them says. -/
def watch (base : Nat) (b : Bool) : PinAction :=
  if base = RISING_ED_OFFSET then .rising b
  else if base = FALLING_ED_OFFSET then .falling b
  else if base = HIGH_DETECT_OFFSET then .high b
  else .low b

theorem watch_bounds {base : Nat} (hbase : base ∈ watches) :
    19 ≤ base ∧ base ≤ 28 ∧ base % 3 = 1 := by
  revert base
  decide

theorem plain_watch {base : Nat} (hbase : base ∈ watches) (hh : h < 54) :
    Plain (base + h / 32) := by
  have hlt : h / 32 < 2 := by omega
  revert base
  interval_cases h / 32 <;> decide

theorem set_watch_flag {base : Nat} (hbase : base ∈ watches) :
    (d.pin g).set (watch base (d.flag base g)) = d.pin g := by
  simp only [watches, List.mem_cons, List.not_mem_nil, or_false] at hbase
  rcases hbase with rfl | rfl | rfl | rfl <;> rfl

theorem flag_update {base base' : Nat} (hbase : base ∈ watches) (hbase' : base' ∈ watches)
    (hg : g < 54) (hh : h < 54) (w : BitVec 32) :
    ({ d with regs := Function.update d.regs (base + h / 32) w } : Device).flag base' g =
      if base' = base ∧ g / 32 = h / 32 then w.getLsbD (g % 32) else d.flag base' g := by
  have hbounds := watch_bounds hbase
  have hbounds' := watch_bounds hbase'
  unfold flag
  dsimp only
  split
  · next hsame => rw [hsame.1, hsame.2, Function.update_self]
  · next hother => rw [Function.update_of_ne (by omega)]

/-- What a bank of pins is watched for is replaced. -/
theorem pin_store_watch {base : Nat} (hbase : base ∈ watches) (hg : g < 54) (hh : h < 54)
    (w : BitVec 32) : (d.store (base + h / 32) w).pin g =
      if g / 32 = h / 32 then (d.pin g).set (watch base (w.getLsbD (g % 32))) else d.pin g := by
  have hbounds := watch_bounds hbase
  have hmode : FSEL_OFFSET + g / 10 ≠ base + h / 32 := by unfold FSEL_OFFSET; omega
  have hpull : base + h / 32 < PULLUPDN_OFFSET_2711_0 := by unfold PULLUPDN_OFFSET_2711_0; omega
  rw [store_plain (plain_watch hbase hh)]
  unfold pin
  rw [flag_update hbase (by decide) hg hh, flag_update hbase (by decide) hg hh,
    flag_update hbase (by decide) hg hh, flag_update hbase (by decide) hg hh,
    pull_update_of_lt hpull]
  dsimp only
  rw [Function.update_of_ne hmode]
  by_cases hbank : g / 32 = h / 32
  · simp only [watches, List.mem_cons, List.not_mem_nil, or_false] at hbase
    rcases hbase with rfl | rfl | rfl | rfl <;>
      simp [hbank, watch, Pin.set, RISING_ED_OFFSET, FALLING_ED_OFFSET, HIGH_DETECT_OFFSET,
        LOW_DETECT_OFFSET]
  · simp [hbank]

theorem pin_latch (d : Device) (f : Nat → Bool) (g : Nat) :
    ({ d with latch := f } : Device).pin g = (d.pin g).set (.latch (f g)) := rfl

theorem picked_one (g h : Nat) : picked (1#32 <<< (h % 32)) (h / 32) g = decide (g = h) := by
  unfold picked
  rw [getLsbD_one_shiftLeft (Nat.mod_lt g (by decide)), ← Bool.decide_and, decide_eq_decide]
  omega

/-- A latch is set. -/
theorem pin_store_set (d : Device) (g : Nat) (hh : h < 54) :
    (d.store (SET_OFFSET + h / 32) (1#32 <<< (h % 32))).pin g =
      if g = h then (d.pin g).set (.latch true) else d.pin g := by
  have hoff : SET_OFFSET + h / 32 = SET_OFFSET ∨ SET_OFFSET + h / 32 = SET_OFFSET + 1 := by omega
  unfold store
  rw [if_pos hoff, pin_latch, Nat.add_sub_cancel_left, picked_one]
  by_cases hgh : g = h
  · rw [if_pos hgh, decide_eq_true hgh, Bool.or_true]
  · rw [if_neg hgh, decide_eq_false hgh, Bool.or_false]
    rfl

/-- A latch is cleared. -/
theorem pin_store_clr (d : Device) (g : Nat) (hh : h < 54) :
    (d.store (CLR_OFFSET + h / 32) (1#32 <<< (h % 32))).pin g =
      if g = h then (d.pin g).set (.latch false) else d.pin g := by
  have hset : ¬ (CLR_OFFSET + h / 32 = SET_OFFSET ∨ CLR_OFFSET + h / 32 = SET_OFFSET + 1) := by
    unfold CLR_OFFSET SET_OFFSET
    omega
  have hoff : CLR_OFFSET + h / 32 = CLR_OFFSET ∨ CLR_OFFSET + h / 32 = CLR_OFFSET + 1 := by omega
  unfold store
  rw [if_neg hset, if_pos hoff, pin_latch, Nat.add_sub_cancel_left, picked_one]
  by_cases hgh : g = h
  · rw [if_pos hgh, decide_eq_true hgh, Bool.not_true, Bool.and_false]
  · rw [if_neg hgh, decide_eq_false hgh, Bool.not_false, Bool.and_true]
    rfl

/-- The events that a word names are cleared. -/
theorem pin_store_event (d : Device) (g : Nat) (hh : h < 54) (w : BitVec 32) :
    (d.store (EVENT_DETECT_OFFSET + h / 32) w).pin g =
      { d.pin g with event := d.event g && !picked w (h / 32) g } := by
  have hset : ¬ (EVENT_DETECT_OFFSET + h / 32 = SET_OFFSET ∨
      EVENT_DETECT_OFFSET + h / 32 = SET_OFFSET + 1) := by
    unfold EVENT_DETECT_OFFSET SET_OFFSET
    omega
  have hclr : ¬ (EVENT_DETECT_OFFSET + h / 32 = CLR_OFFSET ∨
      EVENT_DETECT_OFFSET + h / 32 = CLR_OFFSET + 1) := by
    unfold EVENT_DETECT_OFFSET CLR_OFFSET
    omega
  have hoff : EVENT_DETECT_OFFSET + h / 32 = EVENT_DETECT_OFFSET ∨
      EVENT_DETECT_OFFSET + h / 32 = EVENT_DETECT_OFFSET + 1 := by omega
  unfold store
  rw [if_neg hset, if_neg hclr, if_pos hoff, Nat.add_sub_cancel_left]
  rfl

theorem read_event (hg : g < 54) :
    d.read (EVENT_DETECT_OFFSET + g / 32) = word d.event (g / 32) := by
  have hlevel : ¬ (EVENT_DETECT_OFFSET + g / 32 = PINLEVEL_OFFSET ∨
      EVENT_DETECT_OFFSET + g / 32 = PINLEVEL_OFFSET + 1) := by
    unfold EVENT_DETECT_OFFSET PINLEVEL_OFFSET
    omega
  have hoff : EVENT_DETECT_OFFSET + g / 32 = EVENT_DETECT_OFFSET ∨
      EVENT_DETECT_OFFSET + g / 32 = EVENT_DETECT_OFFSET + 1 := by omega
  unfold read
  rw [if_neg hlevel, if_pos hoff, Nat.add_sub_cancel_left]

theorem getLsbD_word (f : Nat → Bool) (g : Nat) :
    (word f (g / 32)).getLsbD (g % 32) = f g := by
  unfold word
  rw [BitVec.getLsbD_ofFnLE, dif_pos (Nat.mod_lt g (by decide))]
  exact congrArg f (Nat.div_add_mod g 32)

/-! ## What stays -/

theorem regs_store_of_ne {offset r : Nat} (h : r ≠ offset) (d : Device) (w : BitVec 32) :
    (d.store offset w).regs r = d.regs r := by
  unfold store
  split_ifs
  · rfl
  · rfl
  · rfl
  · rfl
  · exact Function.update_of_ne h w d.regs

theorem regs_write_self {offset : Nat} (h : Plain offset) (d : Device) (w : BitVec 32) :
    (d.write offset w).regs offset = w := by
  have hstore := congrArg (fun d => d.regs offset) (store_plain h d w)
  exact hstore.trans (Function.update_self offset w d.regs)

/-- The boards of the fourth generation have a one or a zero above the fields of the last register
    where the others have a zero or a one. -/
structure Sound (fourth : Bool) (d : Device) : Prop where
  chip : d.is2711 = fourth
  differs : fourth = true → ∃ i, 12 ≤ i ∧ i < 32 ∧
    (d.regs PULLUPDN_OFFSET_2711_3).getLsbD i ≠ (0x6770696f#32).getLsbD i
  settled : ∀ g < 54, (d.pin g).Settled

variable {fourth : Bool}

theorem Sound.write (hd : Sound fourth d) {offset : Nat} (h : PULLUPDN_OFFSET_2711_3 ≠ offset)
    (w : BitVec 32) : Sound fourth (d.write offset w) := by
  have hregs : (d.write offset w).regs PULLUPDN_OFFSET_2711_3 = d.regs PULLUPDN_OFFSET_2711_3 :=
    regs_store_of_ne h d w
  refine ⟨?_, ?_, fun g _ => settled_write d offset w g⟩
  · unfold is2711
    simp only [hregs]
    exact hd.chip
  · rw [hregs]
    exact hd.differs

/-! ## The calls -/

/-- What is done to the pin `h` alone, seen by the pin `g`. -/
def own (g h : Nat) (a : PinAction) : List PinAction := if g = h then [a] else []

/-- What is done to the bank of the pin `h`. -/
def bank (g h : Nat) (a : PinAction) : List PinAction := if g / 32 = h / 32 then [a] else []

theorem run_own (p : Pin) (g h : Nat) (a : PinAction) :
    p.run (own g h a) = if g = h then p.step a else p := by
  unfold own
  split <;> rfl

theorem run_bank (p : Pin) (g h : Nat) (a : PinAction) :
    p.run (bank g h a) = if g / 32 = h / 32 then p.step a else p := by
  unfold bank
  split <;> rfl

/-- A write that is a step of some pins. -/
theorem pin_write_own {offset : Nat} {w : BitVec 32} {a : PinAction} (hp : (d.pin g).Settled)
    (hstore : (d.store offset w).pin g = if g = h then (d.pin g).set a else d.pin g) :
    (d.write offset w).pin g = (d.pin g).run (own g h a) := by
  rw [run_own, pin_write, hstore]
  split
  · rfl
  · exact Pin.detect_self hp

/-- All events of a bank are cleared, for the word that is written back holds all of them. -/
theorem pin_clear_event_detect (hp : (d.pin g).Settled) (hh : h < 54) :
    (d.clear_event_detect h).pin g = (d.pin g).run (bank g h .clear) := by
  have hsame : ∀ d : Device, (d.store (EVENT_DETECT_OFFSET + h / 32) 0#32).pin g = d.pin g := by
    intro d
    rw [pin_store_event d g hh]
    unfold picked
    rw [BitVec.getLsbD_zero, Bool.and_false, Bool.not_false, Bool.and_true]
    rfl
  unfold clear_event_detect
  dsimp only
  rw [pin_write_of_same (settled_write _ _ _ g) (hsame _), run_bank, pin_write,
    pin_store_event d g hh, read_event hh]
  by_cases hbank : g / 32 = h / 32
  · have hpicked : picked (word d.event (h / 32) ||| 1#32 <<< (h % 32)) (h / 32) g =
        (d.event g || picked (1#32 <<< (h % 32)) (h / 32) g) := by
      unfold picked
      rw [← hbank, BitVec.getLsbD_or, getLsbD_word, decide_eq_true rfl, Bool.true_and,
        Bool.true_and]
    rw [if_pos hbank, hpicked, Bool.not_or, ← Bool.and_assoc, Bool.and_not_self, Bool.false_and]
    rfl
  · have hpicked : ∀ w, picked w (h / 32) g = false := by
      intro w
      unfold picked
      rw [decide_eq_false hbank, Bool.false_and]
    rw [if_neg hbank, hpicked, Bool.not_false, Bool.and_true]
    exact Pin.detect_self hp

/-- A bit of one pin is set or cleared, and the others keep theirs. -/
theorem pin_switch {base : Nat} (hbase : base ∈ watches) (hp : (d.pin g).Settled) (hg : g < 54)
    (hh : h < 54) {w : BitVec 32} {b : Bool} (hw : ∀ i < 32, w.getLsbD i =
      if i = h % 32 then b else (d.regs (base + h / 32)).getLsbD i) :
    (d.write (base + h / 32) w).pin g = (d.pin g).run (own g h (watch base b)) := by
  refine pin_write_own hp ?_
  rw [pin_store_watch hbase hg hh, hw _ (Nat.mod_lt g (by decide))]
  by_cases hgh : g = h
  · subst hgh
    rw [if_pos rfl, if_pos rfl, if_pos rfl]
  · rw [if_neg hgh]
    by_cases hbank : g / 32 = h / 32
    · rw [if_pos hbank, if_neg (by omega), ← hbank]
      exact set_watch_flag hbase
    · rw [if_neg hbank]

/-- `|= 1 << s`. -/
theorem getLsbD_or_one (w : BitVec 32) (s : Nat) {i : Nat} (hi : i < 32) :
    (w ||| 1#32 <<< s).getLsbD i = if i = s then true else w.getLsbD i := by
  rw [BitVec.getLsbD_or, getLsbD_one_shiftLeft hi]
  split
  · next h => rw [decide_eq_true h, Bool.or_true]
  · next h => rw [decide_eq_false h, Bool.or_false]

/-- `&= ~(1 << s)`. -/
theorem getLsbD_and_not_one (w : BitVec 32) (s : Nat) {i : Nat} (hi : i < 32) :
    (w &&& ~~~(1#32 <<< s)).getLsbD i = if i = s then false else w.getLsbD i := by
  rw [BitVec.getLsbD_and, BitVec.getLsbD_not, getLsbD_one_shiftLeft hi, decide_eq_true hi]
  split
  · next h => rw [decide_eq_true h, Bool.not_true, Bool.and_false, Bool.and_false]
  · next h => rw [decide_eq_false h, Bool.not_false, Bool.and_true, Bool.and_true]

theorem pin_set_event {base : Nat} (hbase : base ∈ watches) (hp : (d.pin g).Settled) (hg : g < 54)
    (hh : h < 54) (enable : Int) : (set_event base d h enable).pin g =
      (d.pin g).run (own g h (watch base (enable ≠ 0)) ++ bank g h .clear) := by
  unfold set_event
  dsimp only
  rw [read_plain (plain_watch hbase hh), Pin.run_append]
  split
  · next hon =>
      rw [pin_clear_event_detect (settled_write _ _ _ g) hh,
        pin_switch hbase hp hg hh fun i hi => getLsbD_or_one _ _ hi, decide_eq_true hon]
  · next hoff =>
      rw [pin_clear_event_detect (settled_write _ _ _ g) hh,
        pin_switch hbase hp hg hh fun i hi => getLsbD_and_not_one _ _ hi, decide_eq_false hoff]

/-- The second store takes the watch from the other pins of the bank. -/
theorem pin_set_falling_event (hp : (d.pin g).Settled) (hg : g < 54) (hh : h < 54) (enable : Int) :
    (d.set_falling_event h enable).pin g = (d.pin g).run
      ((if enable ≠ 0 then bank g h (.falling (g = h)) else own g h (.falling false)) ++
        bank g h .clear) := by
  have hbase : FALLING_ED_OFFSET ∈ watches := by decide
  unfold set_falling_event
  dsimp only
  rw [read_plain (plain_watch hbase hh), Pin.run_append]
  by_cases hon : enable ≠ 0
  · rw [if_pos hon, if_pos hon, pin_clear_event_detect (settled_write _ _ _ g) hh]
    congr 1
    have hfirst := pin_switch hbase hp hg hh (w := d.regs (FALLING_ED_OFFSET + h / 32) |||
      1#32 <<< (h % 32)) fun i hi => getLsbD_or_one _ _ hi
    have hp₁ := settled_write d (FALLING_ED_OFFSET + h / 32)
      (d.regs (FALLING_ED_OFFSET + h / 32) ||| 1#32 <<< (h % 32)) g
    generalize d.write (FALLING_ED_OFFSET + h / 32)
      (d.regs (FALLING_ED_OFFSET + h / 32) ||| 1#32 <<< (h % 32)) = d₁ at hfirst hp₁ ⊢
    rw [pin_write, pin_store_watch hbase hg hh,
      getLsbD_one_shiftLeft (Nat.mod_lt g (by decide))]
    rw [run_own] at hfirst
    change _ = (d.pin g).run (bank g h (.falling (decide (g = h))))
    rw [run_bank]
    by_cases hgh : g = h
    · -- the pin has the bit already
      subst hgh
      rw [if_pos rfl] at hfirst
      rw [if_pos rfl, if_pos rfl, decide_eq_true rfl, decide_eq_true rfl]
      have hset : (d₁.pin g).set (watch FALLING_ED_OFFSET true) = d₁.pin g := by rw [hfirst]; rfl
      rw [hset, Pin.detect_self hp₁, hfirst]
      rfl
    · rw [if_neg hgh] at hfirst
      rw [hfirst, decide_eq_false hgh]
      by_cases hbank : g / 32 = h / 32
      · rw [if_pos hbank, if_pos hbank, decide_eq_false (by omega)]
        rfl
      · rw [if_neg hbank, if_neg hbank]
        exact Pin.detect_self hp
  · rw [if_neg hon, if_neg hon, pin_clear_event_detect (settled_write _ _ _ g) hh,
      pin_switch hbase hp hg hh fun i hi => getLsbD_and_not_one _ _ hi]
    rfl

theorem pin_output_gpio (hp : (d.pin g).Settled) (hh : h < 54) (value : Int) :
    (d.output_gpio h value).pin g = (d.pin g).run (own g h (.latch (value ≠ 0))) := by
  unfold output_gpio
  dsimp only
  by_cases hone : value ≠ 0
  · rw [if_pos hone, decide_eq_true hone]
    exact pin_write_own hp (pin_store_set d g hh)
  · rw [if_neg hone, decide_eq_false hone]
    exact pin_write_own hp (pin_store_clr d g hh)

theorem pin_input (hp : (d.pin g).Settled) (h : Nat) (b : Bool) :
    (d.input h b).pin g = (d.pin g).run (own g h (.drive b)) := by
  have hdrive : ({ d with drive := Function.update d.drive h b } : Device).pin g =
      if g = h then (d.pin g).set (.drive b) else d.pin g := by
    change (d.pin g).set (.drive (Function.update d.drive h b g)) = _
    rw [Function.update_apply]
    split <;> rfl
  rw [run_own]
  change (d.pin g).detect (({ d with drive := Function.update d.drive h b } : Device).pin g) = _
  rw [hdrive]
  split
  · rfl
  · exact Pin.detect_self hp

theorem eventdetected_ne_zero (hg : g < 54) : (d.eventdetected g).1 ≠ 0#32 ↔ d.event g = true := by
  unfold eventdetected
  dsimp only
  rw [read_event hg, and_one_shiftLeft_ne_zero (Nat.mod_lt g (by decide)), getLsbD_word]

theorem pin_eventdetected (hp : (d.pin g).Settled) (hh : h < 54) :
    (d.eventdetected h).2.pin g =
      (d.pin g).run (if d.event h then bank g h .clear else []) := by
  have hvalue := eventdetected_ne_zero (d := d) hh
  unfold eventdetected at hvalue ⊢
  dsimp only at hvalue ⊢
  by_cases hevent : d.event h = true
  · rw [if_pos (hvalue.mpr hevent), if_pos hevent]
    exact pin_clear_event_detect hp hh
  · rw [if_neg (mt hvalue.mp hevent), if_neg hevent]
    rfl

/-! ## Modes -/

/-- The store that ends `setup_gpio`. -/
theorem pin_write_mode (hp : (d.pin g).Settled) (hh : h < 54) (direction : Int) :
    (if direction = OUTPUT then
      d.write (FSEL_OFFSET + h / 10)
        ((d.read (FSEL_OFFSET + h / 10) &&& ~~~(7#32 <<< (h % 10 * 3))) ||| 1#32 <<< (h % 10 * 3))
    else d.write (FSEL_OFFSET + h / 10)
        (d.read (FSEL_OFFSET + h / 10) &&& ~~~(7#32 <<< (h % 10 * 3)))).pin g =
      (d.pin g).run (own g h (.mode (modeOf direction))) := by
  have hplain : Plain (FSEL_OFFSET + h / 10) := by
    have hlt : h / 10 < 6 := by omega
    unfold FSEL_OFFSET
    interval_cases h / 10 <;> decide
  rw [read_plain hplain]
  unfold modeOf
  split
  · exact pin_write_own hp (pin_store_mode hh 1)
  · have hfield : putField (d.regs (FSEL_OFFSET + h / 10)) (h % 10 * 3) 0#3 =
        d.regs (FSEL_OFFSET + h / 10) &&& ~~~(7#32 <<< (h % 10 * 3)) := by
      unfold putField
      rw [BitVec.setWidth_zero, BitVec.zero_shiftLeft, BitVec.or_zero]
      rfl
    rw [← hfield]
    exact pin_write_own hp (pin_store_mode hh 0)

end Device

end KernelBasecamp.Gpio
