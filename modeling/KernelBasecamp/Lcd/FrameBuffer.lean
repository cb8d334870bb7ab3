/-
  The frame buffer of the LCD demo (task04, demo_lcd.c) and what is drawn into it.

  The buffer has one 16-bit colour for each pixel, row after row, with its two bytes swapped for
  the display. A drawing function returns the buffer that it leaves, or `none` if it touches an
  element outside of `frame_buffer` or `font.data`, or shifts by 32 bits or more.

  Coordinates are `uint16_t` and are promoted to `int`, so the comparisons and the sums do not
  wrap; only the cursor `ix` of `lcd_put_string` is a `uint16_t` itself. `char` is taken as
  unsigned; for ASCII that makes no difference. `lcd_update_screen` only sends the buffer and is
  left out of `lcd_fill_rectangle`.
-/
import KernelBasecamp.Lib.Raster

namespace KernelBasecamp.Lcd

open Lib

def LCD_WIDTH : Nat := 320

def LCD_HEIGHT : Nat := 240

abbrev FrameBuffer := Vector UInt16 (LCD_WIDTH * LCD_HEIGHT)

/-- `(color >> 8) | (color << 8)`. -/
def swapped (color : UInt16) : UInt16 := (color >>> 8) ||| (color <<< 8)

/-! ## Pixels and rectangles -/

def lcd_draw_pixel (fb : FrameBuffer) (x y color : UInt16) : Option FrameBuffer :=
  if LCD_WIDTH ≤ x.toNat ∨ LCD_HEIGHT ≤ y.toNat then some fb
  else put fb (x.toNat + LCD_WIDTH * y.toNat) (swapped color)

/-- A size after `if ((start + size - 1) > limit) size = limit - start`. -/
def clip (limit start size : Nat) : Nat :=
  if (start : Int) + size - 1 > limit then limit - start else size

def lcd_fill_rectangle (fb : FrameBuffer) (x y w h color : UInt16) : Option FrameBuffer :=
  if LCD_WIDTH ≤ x.toNat ∨ LCD_HEIGHT ≤ y.toNat then some fb
  else
    let w := clip LCD_WIDTH x.toNat w.toNat
    let h := clip LCD_HEIGHT y.toNat h.toNat
    (List.range h).foldlM (fun fb j =>
      (List.range w).foldlM (fun fb i =>
        put fb (x.toNat + LCD_WIDTH * y.toNat + (i + LCD_WIDTH * j)) (swapped color)) fb) fb

def lcd_fill_screen (fb : FrameBuffer) (color : UInt16) : Option FrameBuffer :=
  lcd_fill_rectangle fb 0 0 (UInt16.ofNat (LCD_WIDTH - 1)) (UInt16.ofNat (LCD_HEIGHT - 1)) color

/-! ## Text -/

structure FontDef where
  width : UInt8
  height : UInt8
  data : List UInt16

/-- `font.data[(ch - 32) * font.height + i]`; the index is a `uint32_t`. -/
def fontRow (font : FontDef) (ch : UInt8) (i : Nat) : Option UInt16 :=
  font.data[((((ch.toNat : Int) - 32) * font.height.toNat + i) % 2 ^ 32).toNat]?

/-- `(b << j) & 0x8000`. -/
def fontBit (b : UInt32) (j : Nat) : Option Bool :=
  if j < 32 then some ((b <<< UInt32.ofNat j) &&& 0x8000 != 0) else none

def lcd_put_char (fb : FrameBuffer) (x y : UInt16) (ch : UInt8) (font : FontDef)
    (color bgcolor : UInt16) : Option FrameBuffer :=
  (List.range font.height.toNat).foldlM (fun fb i => do
    let b ← fontRow font ch i
    (List.range font.width.toNat).foldlM (fun fb j => do
      let bit ← fontBit b.toUInt32 j
      put fb (x.toNat + LCD_WIDTH * y.toNat + (j + LCD_WIDTH * i))
        (if bit then swapped color else swapped bgcolor)) fb) fb

/-- `lcd_put_string`, from `ix` on. A string that is not terminated is read to the end of the
    memory. -/
def lcd_put_string (fb : FrameBuffer) (ix y : UInt16) (s : List UInt8) (font : FontDef)
    (color bgcolor : UInt16) : Option FrameBuffer :=
  match s with
  | [] => none
  | c :: s =>
      if c = 0 ∨ c = 10 then some fb
      else do
        let fb ← lcd_put_char fb ix y c font color bgcolor
        lcd_put_string fb (ix + font.width.toUInt16) y s font color bgcolor

/-! ## Reading the buffer -/

/-- The pixel in a column and a row of the screen. -/
def pixel (fb : FrameBuffer) (px py : Nat) : Option UInt16 := fb[px + LCD_WIDTH * py]?

section

variable {fb fb' : FrameBuffer} {ws : List (Nat × UInt16)} {px py : Nat}

theorem pixel_written (h : putAll fb ws = some fb') (hws : SingleValued ws) (hx : px < LCD_WIDTH)
    (hy : py < LCD_HEIGHT) {c : UInt16} (hmem : (px + LCD_WIDTH * py, c) ∈ ws) :
    pixel fb' px py = some c := by
  have hlt := cell_lt hx hy
  unfold pixel
  rw [Vector.getElem?_eq_getElem hlt, putAll_getElem_of_mem h hlt hws hmem]

theorem pixel_kept (h : putAll fb ws = some fb') (hx : px < LCD_WIDTH) (hy : py < LCD_HEIGHT)
    (hnot : ∀ w ∈ ws, w.1 ≠ px + LCD_WIDTH * py) : pixel fb' px py = pixel fb px py := by
  have hlt := cell_lt hx hy
  unfold pixel
  rw [Vector.getElem?_eq_getElem hlt, Vector.getElem?_eq_getElem hlt,
    putAll_getElem_of_not_mem h hlt hnot]

end

end KernelBasecamp.Lcd
