/-
  The display on the other side of the wires (task04): what its controller makes of the levels of
  its pins and of the bytes that it is sent.

  This states the purpose of demo_lcd.c, and is no translation of it. A byte is a command while
  D/C is low and a parameter while it is high. After LCD_RAMWR the parameters are the pixels, 16
  bits each with the high byte first; they go into the memory at a cursor that runs over the window
  row after row, and from its end back to its start. The commands that tune voltages and timing
  change nothing here, and in another pixel format than that of 16 bits the memory is left alone.
  A transfer that `ioctl` reports as failed has brought nothing.

  The orientation is built in, and 0x36 is not followed: it is assumed that the value which
  `lcd_init_ili9341` sends last, 0x28, gives 320 columns and 240 rows, as LCD_WIDTH and LCD_HEIGHT
  say.

  * `Ready.bytes`: a panel that waits for pixels stores them like a `Cyclic` memory.
-/
import KernelBasecamp.Lib.Cyclic
import KernelBasecamp.Lcd.Transfer

namespace KernelBasecamp.Lcd

open Lib

def LCD_PIN_CS : Nat := 7

def LCD_PIN_RESET : Nat := 27

def LCD_CASET : UInt8 := 0x2A

def LCD_RASET : UInt8 := 0x2B

def LCD_RAMWR : UInt8 := 0x2C

structure Panel where
  /-- CS is low -/
  selected : Bool
  /-- RESET is low -/
  reset : Bool
  /-- D/C is high -/
  data : Bool
  command : UInt8
  /-- the parameters of the command so far, but for pixels -/
  args : List UInt8
  /-- the first and the last column of the window -/
  columns : Nat × Nat
  /-- the first and the last row of the window -/
  pages : Nat × Nat
  x : Nat
  y : Nat
  /-- the high byte of a pixel -/
  half : Option UInt8
  format : UInt8
  awake : Bool
  on : Bool
  gram : Nat → Nat → UInt16
  deriving Inhabited

namespace Panel

/-- The registers after a reset. -/
def defaults (p : Panel) : Panel :=
  { p with command := 0, args := [], columns := (0, 319), pages := (0, 239), half := none,
           format := 0x66, awake := false, on := false }

def takeCommand (p : Panel) (c : UInt8) : Panel :=
  if c = 0x01 then p.defaults
  else
    let p := { p with command := c, args := [], half := none }
    if c = 0x11 then { p with awake := true }
    else if c = 0x29 then { p with on := true }
    else if c = LCD_RAMWR then { p with x := p.columns.1, y := p.pages.1 }
    else p

/-- `high << 8 | low`. -/
def colorOf (high low : UInt8) : UInt16 := (high.toUInt16 <<< 8) ||| low.toUInt16

/-- A pixel goes into the memory, and the cursor on to the next one of the window. -/
def pixel (p : Panel) (color : UInt16) : Panel :=
  let p := { p with half := none }
  if p.format = 0x55 then
    let p := { p with gram := fun px py => if px = p.x ∧ py = p.y then color else p.gram px py }
    if p.x = p.columns.2 then
      { p with x := p.columns.1, y := if p.y = p.pages.2 then p.pages.1 else p.y + 1 }
    else { p with x := p.x + 1 }
  else p

/-- A start and an end, from four parameters. -/
def range : List UInt8 → Option (Nat × Nat)
  | [a, b, c, d] => some (256 * a.toNat + b.toNat, 256 * c.toNat + d.toNat)
  | _ => none

def takeData (p : Panel) (b : UInt8) : Panel :=
  if p.command = LCD_RAMWR then
    match p.half with
    | none => { p with half := some b }
    | some high => p.pixel (colorOf high b)
  else
    let p := { p with args := p.args ++ [b] }
    if p.command = LCD_CASET then { p with columns := (range p.args).getD p.columns }
    else if p.command = LCD_RASET then { p with pages := (range p.args).getD p.pages }
    else if p.command = 0x3A ∧ p.args = [b] then { p with format := b }
    else p

def byte (p : Panel) (b : UInt8) : Panel :=
  if p.selected ∧ ¬ p.reset then if p.data then p.takeData b else p.takeCommand b
  else p

def event (p : Panel) : Event → Panel
  | .gpio pin value =>
      if pin = LCD_PIN_DC then { p with data := value ≠ 0 }
      else if pin = LCD_PIN_CS then { p with selected := value = 0 }
      else if pin = LCD_PIN_RESET then
        if value = 0 then { p.defaults with reset := true } else { p with reset := false }
      else p
  | .spi call => if call.ret < 1 then p else call.tr.tx_buf.foldl byte p
  | .printf _ => p

def react (p : Panel) (log : List Event) : Panel := log.foldl event p

theorem react_append (p : Panel) (log log' : List Event) :
    p.react (log ++ log') = (p.react log).react log' :=
  List.foldl_append

/-! ## Pixels -/

/-- The panel shows its memory, is selected and waits for the pixels of a window of `w` columns
    and `h` rows. -/
structure Ready (w h : Nat) (p : Panel) : Prop where
  awake : p.awake = true
  on : p.on = true
  selected : p.selected = true
  reset : p.reset = false
  command : p.command = LCD_RAMWR
  columns : p.columns = (0, w - 1)
  pages : p.pages = (0, h - 1)
  half : p.half = none
  format : p.format = 0x55
  x : p.x < w
  y : p.y < h

/-- The memory of the window, row after row, and the cursor in it. -/
def cyclic (w : Nat) (p : Panel) : Cyclic UInt16 :=
  ⟨fun j => p.gram (j % w) (j / w), p.x + w * p.y⟩

variable {w h : Nat} {p : Panel}

theorem Ready.cursor_lt (hp : Ready w h p) : (p.cyclic w).cursor < w * h := cell_lt hp.x hp.y

/-- The cell behind a cursor in its row. -/
theorem cell_eq_iff {x y j : Nat} (hx : x < w) : j = x + w * y ↔ j % w = x ∧ j / w = y := by
  constructor
  · rintro rfl
    rw [Nat.add_mul_mod_self_left, Nat.mod_eq_of_lt hx, Nat.add_mul_div_left _ _ (by omega),
      Nat.div_eq_of_lt hx, Nat.zero_add]
    exact ⟨rfl, rfl⟩
  · rintro ⟨rfl, rfl⟩
    exact (Nat.mod_add_div j w).symm

theorem Ready.pixel (hp : Ready w h p) (color : UInt16) :
    Ready w h (p.pixel color) ∧ (p.pixel color).cyclic w = Cyclic.store (w * h) (p.cyclic w) color ∧
      (p.pixel color).data = p.data := by
  have hx := hp.x
  have hy := hp.y
  have hcolumns : p.columns.2 = w - 1 ∧ p.columns.1 = 0 := by rw [hp.columns]; exact ⟨rfl, rfl⟩
  have hpages : p.pages.2 = h - 1 ∧ p.pages.1 = 0 := by rw [hp.pages]; exact ⟨rfl, rfl⟩
  have hmem : (fun j => if j % w = p.x ∧ j / w = p.y then color else p.gram (j % w) (j / w)) =
      Function.update (p.cyclic w).cells (p.cyclic w).cursor color := by
    funext j
    rw [Function.update_apply]
    exact if_congr (cell_eq_iff hx).symm rfl rfl
  unfold Panel.pixel
  dsimp only
  rw [if_pos hp.format]
  split
  · next hlast =>
      rw [hcolumns.1] at hlast
      rw [hcolumns.2, hpages.1, hpages.2]
      split
      · next hbottom =>
          refine ⟨⟨hp.awake, hp.on, hp.selected, hp.reset, hp.command, hp.columns, hp.pages, rfl,
            hp.format, by dsimp only; omega, by dsimp only; omega⟩, ?_, rfl⟩
          have hend : (p.cyclic w).cursor + 1 = w * h := by
            have hw : w * h = w * p.y + w := by
              rw [show h = p.y + 1 by omega, Nat.mul_succ]
            change p.x + w * p.y + 1 = w * h
            omega
          unfold Cyclic.store
          rw [if_pos hend, ← hmem]
          rfl
      · next hbottom =>
          refine ⟨⟨hp.awake, hp.on, hp.selected, hp.reset, hp.command, hp.columns, hp.pages, rfl,
            hp.format, by dsimp only; omega, by dsimp only; omega⟩, ?_, rfl⟩
          have hrow : 0 + w * (p.y + 1) = (p.cyclic w).cursor + 1 := by
            change _ = p.x + w * p.y + 1
            rw [Nat.mul_succ]
            omega
          have hend : (p.cyclic w).cursor + 1 ≠ w * h := by
            have hlt := cell_lt (x := 0) (show 0 < w by omega) (show p.y + 1 < h by omega)
            omega
          unfold Cyclic.store
          rw [if_neg hend, ← hmem, ← hrow]
          rfl
  · next hlast =>
      rw [hcolumns.1] at hlast
      refine ⟨⟨hp.awake, hp.on, hp.selected, hp.reset, hp.command, hp.columns, hp.pages, rfl,
        hp.format, by dsimp only; omega, hy⟩, ?_, rfl⟩
      have hnext : p.x + 1 + w * p.y = (p.cyclic w).cursor + 1 := by
        change _ = p.x + w * p.y + 1
        omega
      have hend : (p.cyclic w).cursor + 1 ≠ w * h := by
        have hlt := cell_lt (show p.x + 1 < w by omega) hy
        omega
      unfold Cyclic.store
      rw [if_neg hend, ← hmem, ← hnext]
      rfl

/-- The low byte of a cell of the frame buffer is sent first, and taken for the high byte. -/
theorem colorOf_bytes (v : UInt16) : colorOf v.toUInt8 (v >>> 8).toUInt8 = swapped v := by
  apply UInt16.toNat_inj.mp
  apply Nat.eq_of_testBit_eq
  intro i
  have height : (8 : UInt16).toNat % 16 = 8 := rfl
  unfold colorOf swapped
  simp only [UInt16.toNat_or, UInt16.toNat_shiftLeft, UInt16.toNat_shiftRight,
    UInt8.toNat_toUInt16, UInt16.toNat_toUInt8, Nat.testBit_or, Nat.testBit_mod_two_pow,
    Nat.testBit_shiftLeft, Nat.testBit_shiftRight, height]
  rcases Nat.lt_or_ge i 8 with hlow | hhigh
  · simp [hlow, show ¬ 8 ≤ i by omega]
  · have hout : v.toNat.testBit (8 + i) = false := Nat.testBit_lt_two_pow
      (Nat.lt_of_lt_of_le v.toNat_lt (Nat.pow_le_pow_right (by decide) (by omega)))
    rw [hout]
    by_cases hi : i < 16
    · simp [hi, hhigh, show ¬ i < 8 by omega, show i - 8 < 8 by omega]
    · simp [hi, show ¬ i < 8 by omega]

/-- The two bytes of a cell of the frame buffer are one pixel. -/
theorem Ready.cell (hp : Ready w h p) (hdata : p.data = true) (v : UInt16) :
    (bytesOf v).foldl byte p = p.pixel (swapped v) := by
  have hon : p.selected = true ∧ ¬ p.reset = true := ⟨hp.selected, by rw [hp.reset]; decide⟩
  have hfirst : p.byte v.toUInt8 = { p with half := some v.toUInt8 } := by
    unfold byte takeData
    rw [if_pos hon, if_pos hdata, if_pos hp.command, hp.half]
  have hsecond : ({ p with half := some v.toUInt8 } : Panel).byte (v >>> 8).toUInt8 =
      p.pixel (swapped v) := by
    unfold byte takeData
    rw [if_pos hon, if_pos hdata, if_pos hp.command]
    dsimp only
    rw [colorOf_bytes]
    rfl
  unfold bytesOf
  rw [List.foldl_cons, List.foldl_cons, List.foldl_nil, hfirst, hsecond]

/-- A panel that waits for pixels stores the cells of the frame buffer that it is sent, one after
    the other. -/
theorem Ready.bytes (hp : Ready w h p) (hdata : p.data = true) (cs : List UInt16) :
    Ready w h ((cs.flatMap bytesOf).foldl byte p) ∧
      ((cs.flatMap bytesOf).foldl byte p).data = true ∧
      ((cs.flatMap bytesOf).foldl byte p).cyclic w =
        Cyclic.stores (w * h) (p.cyclic w) (cs.map swapped) := by
  induction cs generalizing p with
  | nil => exact ⟨hp, hdata, rfl⟩
  | cons c cs ih =>
      obtain ⟨hnext, hcyclic, hd⟩ := hp.pixel (swapped c)
      rw [List.flatMap_cons, List.foldl_append, hp.cell hdata]
      have hrest := ih hnext (hd.trans hdata)
      rw [hcyclic] at hrest
      exact hrest

end Panel

end KernelBasecamp.Lcd
