/-
  What `lcd_put_string` paints.

  A character is a box of cells, one for each bit of its glyph (`lcd_put_char_eq`); a string is
  one box after the other (`lcd_put_string_eq`). As long as the text fits on the screen every
  cell is one pixel of one character, so no cell is given two values
  (`textStores_singleValued`), and the picture is read off the list of stores
  (`put_string_renders`).
-/
import Mathlib
import KernelBasecamp.Lcd.FrameBuffer

namespace KernelBasecamp.Lcd

open Lib

/-- A font with rows of at most 16 bits and glyphs for the codes 32 to 126. -/
structure FontDef.WellFormed (font : FontDef) : Prop where
  width_le : font.width.toNat ≤ 16
  data_length : 95 * font.height.toNat ≤ font.data.length

/-- Row `i` of the glyph of `ch`. -/
def glyphRow (font : FontDef) (ch : UInt8) (i : Nat) : UInt16 :=
  font.data.getD ((ch.toNat - 32) * font.height.toNat + i) 0

/-- The colour of a character in its column `j` and row `i`. -/
def shade (font : FontDef) (color bgcolor : UInt16) (ch : UInt8) (j i : Nat) : UInt16 :=
  if (glyphRow font ch i).toNat.testBit (15 - j) then swapped color else swapped bgcolor

def Printable (ch : UInt8) : Prop := 32 ≤ ch.toNat ∧ ch.toNat ≤ 126

variable {font : FontDef} {color bgcolor : UInt16} {y : UInt16}

/-! ## One character -/

theorem fontBit_eq {j : Nat} (b : UInt16) (hj : j < 16) :
    fontBit b.toUInt32 j = some (b.toNat.testBit (15 - j)) := by
  have hshift : (b.toUInt32 <<< UInt32.ofNat j).toNat.testBit 15 = b.toNat.testBit (15 - j) := by
    rw [UInt32.toNat_shiftLeft, Nat.testBit_mod_two_pow, Nat.testBit_shiftLeft,
      UInt16.toNat_toUInt32, UInt32.toNat_ofNat_of_lt' (Nat.lt_trans hj (by decide)),
      Nat.mod_eq_of_lt (show j < 32 by omega)]
    simp [show j ≤ 15 by omega]
  have hand : ((b.toUInt32 <<< UInt32.ofNat j) &&& 0x8000).toNat =
      ((b.toUInt32 <<< UInt32.ofNat j).toNat.testBit 15).toNat * 2 ^ 15 := by
    rw [UInt32.toNat_and, show (0x8000 : UInt32).toNat = 2 ^ 15 by rfl, Nat.and_two_pow]
  unfold fontBit
  rw [if_pos (by omega), Option.some.injEq, ← hshift, Bool.eq_iff_iff, bne_iff_ne, ne_eq,
    ← UInt32.toNat_inj, hand]
  cases (b.toUInt32 <<< UInt32.ofNat j).toNat.testBit 15 <;> simp

theorem fontRow_eq {ch : UInt8} {i : Nat} (hfont : font.WellFormed) (hch : Printable ch)
    (hi : i < font.height.toNat) : fontRow font ch i = some (glyphRow font ch i) := by
  obtain ⟨hlo, hhi⟩ := hch
  have hdata := hfont.data_length
  have hheight := font.height.toNat_lt
  have hglyph : (ch.toNat - 32) * font.height.toNat ≤ 94 * font.height.toNat :=
    Nat.mul_le_mul_right _ (by omega)
  have hindex : ((ch.toNat : Int) - 32) * font.height.toNat + i =
      ((ch.toNat - 32) * font.height.toNat + i : Nat) := by
    rw [Int.natCast_add, Int.natCast_mul, Int.natCast_sub hlo]
    rfl
  unfold fontRow glyphRow
  rw [hindex, Int.emod_eq_of_lt (Int.natCast_nonneg _) (by omega), Int.toNat_natCast,
    List.getD_eq_getElem?_getD, List.getElem?_eq_getElem (by omega), Option.getD_some]

theorem lcd_put_char_eq {ch : UInt8} (hfont : font.WellFormed) (hch : Printable ch)
    (fb : FrameBuffer) (x : UInt16) :
    lcd_put_char fb x y ch font color bgcolor =
      putAll fb (box LCD_WIDTH (x.toNat + LCD_WIDTH * y.toNat) font.width.toNat
        font.height.toNat (shade font color bgcolor ch)) := by
  refine foldlM_putAll (fun i hi fb => ?_) fb
  have hwidth := hfont.width_le
  rw [fontRow_eq hfont hch (List.mem_range.mp hi), Option.bind_eq_bind, Option.bind_some]
  refine foldlM_put (fun j hj fb => ?_) fb
  rw [fontBit_eq _ (Nat.lt_of_lt_of_le (List.mem_range.mp hj) hwidth)]
  rfl

/-! ## A string -/

/-- The stores of `lcd_put_string`, from the column `ix` on. -/
def textStores (font : FontDef) (color bgcolor y : UInt16) : Nat → List UInt8 →
    List (Nat × UInt16)
  | _, [] => []
  | ix, c :: s =>
      box LCD_WIDTH (ix + LCD_WIDTH * y.toNat) font.width.toNat font.height.toNat
        (shade font color bgcolor c) ++ textStores font color bgcolor y (ix + font.width.toNat) s

theorem lcd_put_string_eq (hfont : font.WellFormed) {s : List UInt8} (hs : ∀ c ∈ s, Printable c)
    {stop : UInt8} (hstop : stop = 0 ∨ stop = 10) (t : List UInt8) (fb : FrameBuffer)
    {ix : UInt16} (hx : ix.toNat + s.length * font.width.toNat ≤ LCD_WIDTH) :
    lcd_put_string fb ix y (s ++ stop :: t) font color bgcolor =
      putAll fb (textStores font color bgcolor y ix.toNat s) := by
  induction s generalizing ix fb with
  | nil =>
      rw [List.nil_append, lcd_put_string, if_pos hstop]
      rfl
  | cons c s ih =>
      obtain ⟨hc, hs⟩ := List.forall_mem_cons.mp hs
      rw [List.length_cons, Nat.succ_mul] at hx
      have hgo : ¬ (c = 0 ∨ c = 10) := by
        rintro (rfl | rfl)
        · exact absurd hc.1 (by decide)
        · exact absurd hc.1 (by decide)
      have hix : (ix + font.width.toUInt16).toNat = ix.toNat + font.width.toNat := by
        unfold LCD_WIDTH at hx
        rw [UInt16.toNat_add, UInt8.toNat_toUInt16, Nat.mod_eq_of_lt (by omega)]
      rw [List.cons_append, lcd_put_string, if_neg hgo, lcd_put_char_eq hfont hc, textStores,
        putAll_append, ← hix]
      exact Option.bind_congr fun fb' _ => ih hs fb' (by omega)

theorem mem_textStores {s : List UInt8} {ix : Nat} {p : Nat × UInt16} :
    p ∈ textStores font color bgcolor y ix s ↔
      ∃ k, ∃ hk : k < s.length, ∃ i < font.height.toNat, ∃ j < font.width.toNat,
        p = (ix + k * font.width.toNat + j + LCD_WIDTH * (y.toNat + i),
          shade font color bgcolor s[k] j i) := by
  induction s generalizing ix with
  | nil => exact iff_of_false List.not_mem_nil fun ⟨_, hk, _⟩ => absurd hk (Nat.not_lt_zero _)
  | cons c s ih =>
      have hnext : ∀ k j, ix + (k + 1) * font.width.toNat + j =
          ix + font.width.toNat + k * font.width.toNat + j := by
        intro k j
        rw [Nat.succ_mul]
        omega
      rw [textStores, List.mem_append, mem_box, ih]
      constructor
      · rintro (⟨i, hi, j, hj, rfl⟩ | ⟨k, hk, i, hi, j, hj, rfl⟩)
        · refine ⟨0, Nat.succ_pos _, i, hi, j, hj, ?_⟩
          rw [cell_add, Nat.zero_mul]
          rfl
        · refine ⟨k + 1, Nat.succ_lt_succ hk, i, hi, j, hj, ?_⟩
          rw [hnext]
          rfl
      · rintro ⟨k, hk, i, hi, j, hj, rfl⟩
        cases k with
        | zero =>
            refine .inl ⟨i, hi, j, hj, ?_⟩
            rw [cell_add, Nat.zero_mul]
            rfl
        | succ k =>
            refine .inr ⟨k, Nat.lt_of_succ_lt_succ hk, i, hi, j, hj, ?_⟩
            rw [hnext]
            rfl

/-- A column of a text that fits on the screen. -/
theorem column_lt {k j w count x : Nat} (hk : k < count) (hj : j < w)
    (hx : x + count * w ≤ LCD_WIDTH) :
    x + k * w + j < x + count * w ∧ x + k * w + j < LCD_WIDTH := by
  have hle : (k + 1) * w ≤ count * w := Nat.mul_le_mul_right w hk
  rw [Nat.succ_mul] at hle
  omega

/-- On the screen the cells of different characters, rows and columns are different. -/
theorem textStores_singleValued {s : List UInt8} {x : Nat}
    (hx : x + s.length * font.width.toNat ≤ LCD_WIDTH) :
    SingleValued (textStores font color bgcolor y x s) := by
  intro p hp q hq hcell
  obtain ⟨k, hk, i, hi, j, hj, rfl⟩ := mem_textStores.mp hp
  obtain ⟨k', hk', i', hi', j', hj', rfl⟩ := mem_textStores.mp hq
  obtain ⟨hcol, hrow⟩ := (cell_inj (column_lt hk hj hx).2 (column_lt hk' hj' hx).2).mp hcell
  have hsame : j + font.width.toNat * k = j' + font.width.toNat * k' := by
    rw [Nat.mul_comm _ k, Nat.mul_comm _ k']
    omega
  obtain ⟨rfl, rfl⟩ := (cell_inj hj hj').mp hsame
  obtain rfl : i = i' := by omega
  rfl

/-! ## The picture -/

/-- A text that fits on the screen is painted bit by bit of its glyphs, and nothing else
    changes; no index is out of range. -/
theorem put_string_renders (hfont : font.WellFormed) {s : List UInt8}
    (hs : ∀ c ∈ s, Printable c) {stop : UInt8} (hstop : stop = 0 ∨ stop = 10) (t : List UInt8)
    (fb : FrameBuffer) {x y : UInt16} (color bgcolor : UInt16)
    (hx : x.toNat + s.length * font.width.toNat ≤ LCD_WIDTH)
    (hy : y.toNat + font.height.toNat ≤ LCD_HEIGHT) :
    ∃ fb', lcd_put_string fb x y (s ++ stop :: t) font color bgcolor = some fb' ∧
      (∀ k (hk : k < s.length), ∀ i < font.height.toNat, ∀ j < font.width.toNat,
        pixel fb' (x.toNat + k * font.width.toNat + j) (y.toNat + i) =
          some (if (glyphRow font s[k] i).toNat.testBit (15 - j) then swapped color
            else swapped bgcolor)) ∧
      ∀ px < LCD_WIDTH, ∀ py < LCD_HEIGHT,
        ¬ ((x.toNat ≤ px ∧ px < x.toNat + s.length * font.width.toNat) ∧
          (y.toNat ≤ py ∧ py < y.toNat + font.height.toNat)) →
        pixel fb' px py = pixel fb px py := by
  have hsome : (putAll fb (textStores font color bgcolor y x.toNat s)).isSome := by
    refine (putAll_isSome_iff _ _).mpr fun p hp => ?_
    obtain ⟨k, hk, i, hi, j, hj, rfl⟩ := mem_textStores.mp hp
    exact cell_lt (column_lt hk hj hx).2 (by omega)
  obtain ⟨fb', hfb⟩ := Option.isSome_iff_exists.mp hsome
  refine ⟨fb', (lcd_put_string_eq hfont hs hstop t fb hx).trans hfb, ?_, ?_⟩
  · intro k hk i hi j hj
    exact pixel_written hfb (textStores_singleValued hx) (column_lt hk hj hx).2 (by omega)
      (mem_textStores.mpr ⟨k, hk, i, hi, j, hj, rfl⟩)
  · intro px hpx py hpy hout
    refine pixel_kept hfb hpx hpy fun p hp hcell => hout ?_
    obtain ⟨k, hk, i, hi, j, hj, rfl⟩ := mem_textStores.mp hp
    obtain ⟨hlt, hcol⟩ := column_lt hk hj hx
    obtain ⟨rfl, rfl⟩ := (cell_inj hcol hpx).mp hcell
    omega

/-- Two characters of two rows at the column 10 and the row 20: of "O" the left bit is set in the
    first row and the right bit in the second. -/
theorem put_string_renders_rows :
    ∃ fb', lcd_put_string (Vector.replicate _ 0) 10 20 [33, 79, 0]
        ⟨2, 2, List.replicate 95 0x8000 ++ List.replicate 95 0x4000⟩ 0xFFFF 0x001F = some fb' ∧
      pixel fb' 10 20 = some 0xFFFF ∧ pixel fb' 11 21 = some 0x1F00 ∧
      pixel fb' 12 20 = some 0xFFFF ∧ pixel fb' 13 20 = some 0x1F00 ∧
      pixel fb' 12 21 = some 0x1F00 ∧ pixel fb' 13 21 = some 0xFFFF ∧ pixel fb' 14 20 = some 0 := by
  have hfont : FontDef.WellFormed ⟨2, 2, List.replicate 95 0x8000 ++ List.replicate 95 0x4000⟩ :=
    ⟨by decide, by decide +kernel⟩
  have hs : ∀ c ∈ [(33 : UInt8), 79], Printable c := by
    unfold Printable
    decide +kernel
  obtain ⟨fb', hfb, hpaint, hkept⟩ := put_string_renders hfont hs (.inl rfl) []
    (Vector.replicate _ 0) (x := 10) (y := 20) 0xFFFF 0x001F (by decide) (by decide)
  have hfirst := hpaint 0 (by decide)
  have hsecond := hpaint 1 (by decide)
  have hbeside : pixel fb' 14 20 = some 0 := by
    rw [hkept 14 (by decide) 20 (by decide) (by decide)]
    unfold pixel
    rw [Vector.getElem?_replicate, if_pos (by decide)]
  exact ⟨fb', hfb, (hfirst 0 (by decide) 0 (by decide)).trans (by decide),
    (hfirst 1 (by decide) 1 (by decide)).trans (by decide),
    (hsecond 0 (by decide) 0 (by decide)).trans (by decide),
    (hsecond 0 (by decide) 1 (by decide)).trans (by decide),
    (hsecond 1 (by decide) 0 (by decide)).trans (by decide),
    (hsecond 1 (by decide) 1 (by decide)).trans (by decide), hbeside⟩

end KernelBasecamp.Lcd
