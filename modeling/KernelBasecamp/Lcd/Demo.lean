/-
  The demo program of task04 (demo_lcd.c) from the reset of the display to the last update: what
  it sends before the first pixel, its drawing calls, and `main`.

  Sleeping, the mode of the SPI device and the export of the pins are left out. A circle is the
  list of the pixels that `lcd_put_circle` comes to, which it computes with floating point
  numbers.
-/
import KernelBasecamp.Lib.CMem
import KernelBasecamp.Lcd.Panel

namespace KernelBasecamp.Lcd

open Lib Lib.CMem

/-! ## Commands -/

def lcd_reset (log : List Event) : List Event :=
  log ++ [.gpio LCD_PIN_RESET 0, .gpio LCD_PIN_RESET 1, .gpio LCD_PIN_CS 0]

def lcd_write_command (ioctl : Ioctl) (cmd : UInt8) (log : List Event) :
    Option (List Event) :=
  spi_write ioctl [cmd] 0 1 (log ++ [.gpio LCD_PIN_DC 0])

/-- The commands of `lcd_init_ili9341` with their data. -/
def initSequence : List (UInt8 × List UInt8) :=
  [(0x01, []),
   (0xCB, [0x39, 0x2C, 0x00, 0x34, 0x02]),
   (0xCF, [0x00, 0xC1, 0x30]),
   (0xE8, [0x85, 0x00, 0x78]),
   (0xEA, [0x00, 0x00]),
   (0xED, [0x64, 0x03, 0x12, 0x81]),
   (0xF7, [0x20]),
   (0xC0, [0x23]),
   (0xC1, [0x10]),
   (0xC5, [0x3E, 0x28]),
   (0xC7, [0x86]),
   (0x3A, [0x55]),
   (0xB1, [0x00, 0x18]),
   (0xB6, [0x08, 0x82, 0x27]),
   (0xF2, [0x00]),
   (0x26, [0x01]),
   (0xE0, [0x0F, 0x31, 0x2B, 0x0C, 0x0E, 0x08, 0x4E, 0xF1, 0x37, 0x07, 0x10, 0x03, 0x0E, 0x09,
     0x00]),
   (0xE1, [0x00, 0x0E, 0x14, 0x03, 0x11, 0x07, 0x31, 0xC1, 0x48, 0x08, 0x0F, 0x0C, 0x31, 0x36,
     0x0F]),
   (0x11, []),
   (0x29, []),
   (0x36, [0x28])]

/-- A command, and its data if there are any. -/
def sendCommand (ioctl : Ioctl) (log : List Event) (c : UInt8 × List UInt8) :
    Option (List Event) := do
  let log ← lcd_write_command ioctl c.1 log
  if c.2 = [] then some log else lcd_write_data ioctl c.2 c.2.length log

def lcd_init_ili9341 (ioctl : Ioctl) (log : List Event) : Option (List Event) :=
  initSequence.foldlM (sendCommand ioctl) log

/-- `{ (a >> 8) & 0xFF, a & 0xFF, (b >> 8) & 0xFF, b & 0xFF }`. -/
def addressBytes (a b : UInt16) : List UInt8 :=
  [((a >>> 8) &&& 0xFF).toUInt8, (a &&& 0xFF).toUInt8, ((b >>> 8) &&& 0xFF).toUInt8,
    (b &&& 0xFF).toUInt8]

def lcd_set_address_window (ioctl : Ioctl) (x0 y0 x1 y1 : UInt16)
    (log : List Event) : Option (List Event) := do
  let log ← lcd_write_command ioctl LCD_CASET log
  let log ← lcd_write_data ioctl (addressBytes x0 x1) 4 log
  let log ← lcd_write_command ioctl LCD_RASET log
  let log ← lcd_write_data ioctl (addressBytes y0 y1) 4 log
  lcd_write_command ioctl LCD_RAMWR log

/-- `main` up to the first drawing call. -/
def start (ioctl : Ioctl) (log : List Event) : Option (List Event) := do
  let log ← lcd_init_ili9341 ioctl (lcd_reset log)
  lcd_set_address_window ioctl 0 0 (UInt16.ofNat (LCD_WIDTH - 1)) (UInt16.ofNat (LCD_HEIGHT - 1))
    (log ++ [.printf "LCD init ok\n"])

/-! ## Drawing -/

structure Screen where
  fb : FrameBuffer
  log : List Event

inductive Call
  | draw_pixel (x y color : UInt16)
  | fill_rectangle (x y w h color : UInt16)
  | fill_screen (color : UInt16)
  | put_string (x y : UInt16) (s : List UInt8) (font : FontDef) (color bgcolor : UInt16)
  | update_screen

/-- The whole of `lcd_fill_rectangle`, which ends in an update. -/
def Screen.fill_rectangle (ioctl : Ioctl) (s : Screen) (x y w h color : UInt16) :
    Option Screen :=
  if LCD_WIDTH ≤ x.toNat ∨ LCD_HEIGHT ≤ y.toNat then some s
  else do
    let fb ← lcd_fill_rectangle s.fb x y w h color
    let log ← lcd_update_screen ioctl fb s.log
    some ⟨fb, log⟩

def Screen.call (ioctl : Ioctl) (s : Screen) : Call → Option Screen
  | .draw_pixel x y color => (lcd_draw_pixel s.fb x y color).map fun fb => { s with fb }
  | .fill_rectangle x y w h color => s.fill_rectangle ioctl x y w h color
  | .fill_screen color =>
      s.fill_rectangle ioctl 0 0 (UInt16.ofNat (LCD_WIDTH - 1)) (UInt16.ofNat (LCD_HEIGHT - 1))
        color
  | .put_string x y text font color bgcolor =>
      (lcd_put_string s.fb x y text font color bgcolor).map fun fb => { s with fb }
  | .update_screen => (lcd_update_screen ioctl s.fb s.log).map fun log => { s with log }

def COLOR_BLACK : UInt16 := 0x0000

def COLOR_BLUE : UInt16 := 0x001F

def COLOR_GREEN : UInt16 := 0x07E0

/-- The pixels of `lcd_put_circle`. -/
def lcd_put_circle (points : List (UInt16 × UInt16)) (color : UInt16) : List Call :=
  points.map fun p => .draw_pixel p.1 p.2 color

/-- The drawing calls of `main`; `n` is `strlen(time_str)`, and the column is computed as an
    `unsigned long`. -/
def mainCalls (font : FontDef) (time_str ip : List UInt8) (n : Nat)
    (circle circle' : List (UInt16 × UInt16)) : List Call :=
  [.fill_screen COLOR_GREEN,
    .put_string (316 - UInt64.ofNat n * font.width.toUInt64).toUInt16 4 time_str font COLOR_BLACK
      COLOR_GREEN,
    .put_string 4 (UInt16.ofInt (240 - font.height.toNat - 4)) ip font COLOR_BLACK COLOR_GREEN] ++
  lcd_put_circle circle COLOR_BLUE ++ lcd_put_circle circle' COLOR_BLUE ++ [.update_screen]

/-- `main` from `lcd_reset` to the last update. -/
def main (ioctl : Ioctl) (font : FontDef) (time_str ip : List UInt8)
    (circle circle' : List (UInt16 × UInt16)) : Option Screen := do
  let log ← start ioctl []
  let n ← strlen time_str
  (mainCalls font time_str ip n circle circle').foldlM (Screen.call ioctl)
    ⟨Vector.replicate _ 0, log⟩

end KernelBasecamp.Lcd
