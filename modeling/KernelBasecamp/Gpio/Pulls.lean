/-
  The resistors of the pins, which the boards set in two ways: in fields of registers, and by
  clocking a control word into the pads. For a pin both come to the same (`pin_set_pullupdn`).
-/
import KernelBasecamp.Gpio.Pins

namespace KernelBasecamp.Gpio

open Lib

/-- The resistor of a code, where codes without a meaning are `PUD_OFF`. -/
def pullOf (pud : Int) : Pull :=
  if pud = PUD_DOWN then .down else if pud = PUD_UP then .up else .off

namespace Device

variable {d : Device} {g h : Nat}

/-! ## Fields -/

theorem pull_of_2711 (h : d.is2711 = true) (g : Nat) : d.pull g =
    .of2711 ((d.regs (PULLUPDN_OFFSET_2711_0 + g / 16)).extractLsb' (g % 16 * 2) 2) := by
  unfold pull
  rw [if_pos h]

theorem pull_of_legacy (h : d.is2711 = false) (g : Nat) : d.pull g = .ofControl (d.pad g) := by
  unfold pull
  rw [h]
  rfl

/-- The resistor of one pin is replaced; the test for the board still finds the fourth
    generation, for it depends on bits that are in no field. -/
theorem pin_store_pull (hd : Sound true d) (hg : g < 54) (hh : h < 54) (code : BitVec 2) :
    Sound true (d.write (PULLUPDN_OFFSET_2711_0 + h / 16)
      (putField (d.regs (PULLUPDN_OFFSET_2711_0 + h / 16)) (h % 16 * 2) code)) ∧
    (d.store (PULLUPDN_OFFSET_2711_0 + h / 16)
      (putField (d.regs (PULLUPDN_OFFSET_2711_0 + h / 16)) (h % 16 * 2) code)).pin g =
        if g = h then (d.pin g).set (.pull (.of2711 code)) else d.pin g := by
  have hplain : Plain (PULLUPDN_OFFSET_2711_0 + h / 16) := by
    have hlt : h / 16 < 4 := by omega
    unfold PULLUPDN_OFFSET_2711_0
    interval_cases h / 16 <;> decide
  generalize hw : putField (d.regs (PULLUPDN_OFFSET_2711_0 + h / 16)) (h % 16 * 2) code = w
  have hregs : ∀ r, (d.store (PULLUPDN_OFFSET_2711_0 + h / 16) w).regs r =
      Function.update d.regs (PULLUPDN_OFFSET_2711_0 + h / 16) w r := by
    intro r
    rw [store_plain hplain]
  obtain ⟨i, hlo, hhi, hbit⟩ := hd.differs rfl
  have hkept :
      ((d.store (PULLUPDN_OFFSET_2711_0 + h / 16) w).regs PULLUPDN_OFFSET_2711_3).getLsbD i =
        (d.regs PULLUPDN_OFFSET_2711_3).getLsbD i := by
    rw [hregs]
    by_cases hlast : PULLUPDN_OFFSET_2711_3 = PULLUPDN_OFFSET_2711_0 + h / 16
    · rw [hlast, Function.update_self, ← hw, getLsbD_putField _ _ _ hhi, if_neg]
      unfold PULLUPDN_OFFSET_2711_3 PULLUPDN_OFFSET_2711_0 at hlast
      omega
    · rw [Function.update_of_ne hlast]
  have hchip : (d.store (PULLUPDN_OFFSET_2711_0 + h / 16) w).is2711 = true := by
    unfold is2711
    refine decide_eq_true fun hmagic => hbit ?_
    rw [← hkept, hmagic]
    rfl
  refine ⟨⟨hchip, fun _ => ⟨i, hlo, hhi, ?_⟩, fun g _ => settled_write _ _ _ g⟩, ?_⟩
  · change ((d.store (PULLUPDN_OFFSET_2711_0 + h / 16) w).regs
      PULLUPDN_OFFSET_2711_3).getLsbD i ≠ _
    rw [hkept]
    exact hbit
  · have hpull := pull_of_2711 hchip g
    rw [hregs] at hpull
    rw [store_plain hplain] at hpull ⊢
    unfold pin
    rw [hpull, flag_update_of_ne (by unfold PULLUPDN_OFFSET_2711_0 RISING_ED_OFFSET; omega),
      flag_update_of_ne (by unfold PULLUPDN_OFFSET_2711_0 FALLING_ED_OFFSET; omega),
      flag_update_of_ne (by unfold PULLUPDN_OFFSET_2711_0 HIGH_DETECT_OFFSET; omega),
      flag_update_of_ne (by unfold PULLUPDN_OFFSET_2711_0 LOW_DETECT_OFFSET; omega)]
    dsimp only
    rw [Function.update_of_ne (by unfold PULLUPDN_OFFSET_2711_0 FSEL_OFFSET; omega)]
    by_cases hgh : g = h
    · subst hgh
      rw [Function.update_self, ← hw, extract_putField _ _ (by omega), if_pos rfl]
      rfl
    · rw [if_neg hgh]
      congr 1
      rw [pull_of_2711 hd.chip]
      by_cases hword : g / 16 = h / 16
      · rw [hword, Function.update_self, ← hw,
          extract_putField_of_disjoint _ _ (by omega) (by omega)]
      · rw [Function.update_of_ne (by omega)]

/-- The code of the fields. -/
def codeOf (pud : Int) : BitVec 2 :=
  if pud = PUD_OFF then 0 else if pud = PUD_UP then 1 else if pud = PUD_DOWN then 2 else 0

theorem of2711_codeOf (pud : Int) : Pull.of2711 (codeOf pud) = pullOf pud := by
  unfold codeOf pullOf
  by_cases hoff : pud = PUD_OFF
  · subst hoff
    rfl
  · by_cases hup : pud = PUD_UP
    · subst hup
      rfl
    · rw [if_neg hoff, if_neg hup, if_neg hup]
      split_ifs <;> rfl

theorem set_pullupdn_2711 (hd : d.is2711 = true) (hh : h < 54) (pud : Int) :
    d.set_pullupdn h pud = d.write (PULLUPDN_OFFSET_2711_0 + h / 16)
      (putField (d.regs (PULLUPDN_OFFSET_2711_0 + h / 16)) (h % 16 * 2) (codeOf pud)) := by
  have hplain : Plain (PULLUPDN_OFFSET_2711_0 + h / 16) := by
    have hlt : h / 16 < 4 := by omega
    unfold PULLUPDN_OFFSET_2711_0
    interval_cases h / 16 <;> decide
  have hlast : d.read PULLUPDN_OFFSET_2711_3 ≠ 0x6770696f := by
    rw [read_plain (by decide)]
    exact of_decide_eq_true hd
  have hshift : (h &&& 0xf) <<< 1 = h % 16 * 2 := by
    rw [Nat.shiftLeft_eq]
    exact congrArg (· * 2) (Nat.and_two_pow_sub_one_eq_mod h 4)
  have hreg : h >>> 4 = h / 16 := Nat.shiftRight_eq_div_pow h 4
  have hcode : (if pud = PUD_OFF then 0 else if pud = PUD_UP then 1 else
      if pud = PUD_DOWN then 2 else 0 : BitVec 32) = (codeOf pud).setWidth 32 := by
    unfold codeOf
    split_ifs <;> rfl
  unfold set_pullupdn
  rw [if_pos hlast]
  dsimp only
  rw [hshift, hreg, read_plain hplain, hcode]
  rfl

/-! ## Pads -/

/-- The control word is no part of a pin. -/
theorem pin_store_control (d : Device) (w : BitVec 32) (g : Nat) (hg : g < 54) :
    (d.store PULLUPDN_OFFSET w).pin g = d.pin g := by
  have hfar : ∀ n, n < 19 ∨ n = 19 ∨ n = 22 ∨ n = 25 ∨ n = 28 → n + g / 32 ≠ PULLUPDN_OFFSET := by
    unfold PULLUPDN_OFFSET
    omega
  rw [store_plain (by decide)]
  unfold pin
  rw [pull_update_of_lt (by decide), flag_update_of_ne (hfar _ (by decide)),
    flag_update_of_ne (hfar _ (by decide)), flag_update_of_ne (hfar _ (by decide)),
    flag_update_of_ne (hfar _ (by decide))]
  dsimp only
  rw [Function.update_of_ne (by unfold PULLUPDN_OFFSET FSEL_OFFSET; omega)]

theorem store_pad (d : Device) (hh : h < 54) (w : BitVec 32) :
    d.store (PULLUPDNCLK_OFFSET + h / 32) w =
      { d with pad := fun g => if picked w (h / 32) g then
          (d.regs PULLUPDN_OFFSET).setWidth 2 else d.pad g } := by
  have hbank : h / 32 = 0 ∨ h / 32 = 1 := by omega
  rcases hbank with hbank | hbank <;> rw [hbank] <;> rfl

/-- The control word is clocked into the pad of one pin. -/
theorem pin_store_pad (hd : d.is2711 = false) (hh : h < 54) (g : Nat) :
    (d.store (PULLUPDNCLK_OFFSET + h / 32) (1#32 <<< (h % 32))).pin g =
      if g = h then (d.pin g).set (.pull (.ofControl ((d.regs PULLUPDN_OFFSET).setWidth 2)))
      else d.pin g := by
  have hpull : ∀ f : Nat → BitVec 2, ({ d with pad := f } : Device).pin g =
      (d.pin g).set (.pull (.ofControl (f g))) := by
    intro f
    have hnew : ({ d with pad := f } : Device).is2711 = false := hd
    rw [← pull_of_legacy hnew g]
    rfl
  rw [store_pad d hh, hpull, picked_one]
  by_cases hgh : g = h
  · rw [if_pos hgh, decide_eq_true hgh, if_pos rfl]
  · rw [if_neg hgh, decide_eq_false hgh, if_neg Bool.false_ne_true, ← pull_of_legacy hd g]
    rfl

/-- Clocking nothing. -/
theorem pin_store_pad_zero (d : Device) (hh : h < 54) (g : Nat) :
    (d.store (PULLUPDNCLK_OFFSET + h / 32) 0#32).pin g = d.pin g := by
  have hnone : ∀ g, picked 0#32 (h / 32) g = false := by
    intro g
    unfold picked
    rw [BitVec.getLsbD_zero, Bool.and_false]
  rw [store_pad d hh]
  simp only [hnone, if_neg Bool.false_ne_true]

theorem setWidth_control (w : BitVec 32) {code : BitVec 32} :
    ((w &&& ~~~3#32) ||| code).setWidth 2 = code.setWidth 2 := by
  refine BitVec.eq_of_getLsbD_eq fun i hi => ?_
  simp [hi]

/-- The store of the control word. -/
theorem control_eq (d : Device) (pud : Int) :
    (if pud = PUD_DOWN then
      d.write PULLUPDN_OFFSET ((d.read PULLUPDN_OFFSET &&& ~~~3#32) ||| 1#32)
    else if pud = PUD_UP then
      d.write PULLUPDN_OFFSET ((d.read PULLUPDN_OFFSET &&& ~~~3#32) ||| 2#32)
    else d.write PULLUPDN_OFFSET (d.read PULLUPDN_OFFSET &&& ~~~3#32)) =
      d.write PULLUPDN_OFFSET ((d.regs PULLUPDN_OFFSET &&& ~~~3#32) |||
        if pud = PUD_DOWN then 1#32 else if pud = PUD_UP then 2#32 else 0#32) := by
  rw [read_plain (by decide)]
  split_ifs
  · rfl
  · rfl
  · rw [BitVec.or_zero]

/-- Both ways set the resistor of the pin and leave the other pins alone. -/
theorem pin_set_pullupdn {fourth : Bool} (hd : Sound fourth d) (hg : g < 54) (hh : h < 54)
    (pud : Int) : Sound fourth (d.set_pullupdn h pud) ∧
      (d.set_pullupdn h pud).pin g = (d.pin g).run (own g h (.pull (pullOf pud))) := by
  cases fourth with
  | true =>
      obtain ⟨hsound, hpin⟩ := pin_store_pull hd hg hh (codeOf pud)
      rw [set_pullupdn_2711 hd.chip hh]
      rw [of2711_codeOf] at hpin
      exact ⟨hsound, pin_write_own (hd.settled g hg) hpin⟩
  | false =>
      have hlast : ¬ d.read PULLUPDN_OFFSET_2711_3 ≠ 0x6770696f := by
        rw [read_plain (by decide)]
        exact of_decide_eq_false hd.chip
      have hfar : PULLUPDN_OFFSET_2711_3 ≠ PULLUPDNCLK_OFFSET + h / 32 := by
        unfold PULLUPDN_OFFSET_2711_3 PULLUPDNCLK_OFFSET
        omega
      unfold set_pullupdn
      rw [if_neg hlast]
      dsimp only
      rw [control_eq]
      generalize hcode : (if pud = PUD_DOWN then 1#32 else if pud = PUD_UP then 2#32 else 0#32) =
        code
      have hpull : Pull.ofControl (code.setWidth 2) = pullOf pud := by
        rw [← hcode]
        unfold pullOf
        by_cases hdown : pud = PUD_DOWN
        · rw [if_pos hdown, if_pos hdown]
          rfl
        · rw [if_neg hdown, if_neg hdown]
          split_ifs <;> rfl
      have h₁ := hd.write (by decide : PULLUPDN_OFFSET_2711_3 ≠ PULLUPDN_OFFSET)
        ((d.regs PULLUPDN_OFFSET &&& ~~~3#32) ||| code)
      have hpin₁ := pin_write_of_same (hd.settled g hg)
        (pin_store_control d ((d.regs PULLUPDN_OFFSET &&& ~~~3#32) ||| code) g hg)
      have hcontrol : ((d.write PULLUPDN_OFFSET
          ((d.regs PULLUPDN_OFFSET &&& ~~~3#32) ||| code)).regs PULLUPDN_OFFSET).setWidth 2 =
            code.setWidth 2 := by
        rw [regs_write_self (by decide), setWidth_control]
      generalize d.write PULLUPDN_OFFSET ((d.regs PULLUPDN_OFFSET &&& ~~~3#32) ||| code) = d₁
        at h₁ hpin₁ hcontrol ⊢
      have h₂ := h₁.write hfar (1#32 <<< (h % 32))
      have hpin₂ := pin_write_own (h₁.settled g hg) (pin_store_pad h₁.chip hh g)
      generalize d₁.write (PULLUPDNCLK_OFFSET + h / 32) (1#32 <<< (h % 32)) = d₂ at h₂ hpin₂ ⊢
      generalize d₂.read PULLUPDN_OFFSET &&& ~~~3#32 = w
      have h₃ := h₂.write (by decide : PULLUPDN_OFFSET_2711_3 ≠ PULLUPDN_OFFSET) w
      have hpin₃ := pin_write_of_same (h₂.settled g hg) (pin_store_control d₂ w g hg)
      generalize d₂.write PULLUPDN_OFFSET w = d₃ at h₃ hpin₃ ⊢
      refine ⟨h₃.write hfar 0#32, ?_⟩
      rw [pin_write_of_same (h₃.settled g hg) (pin_store_pad_zero d₃ hh g), hpin₃, hpin₂, hpin₁,
        hcontrol, hpull]

end Device

end KernelBasecamp.Gpio
