/-
  The picture that `main` of demo_lcd.c leaves on the display, pixel by pixel.

  `Depicts` relates the frame buffer to a picture, a function of the column and the row. A drawing
  call lays its own pixels over the picture (`letters`, `dots`); `main_shows` puts the layers
  together and carries the last frame over to the panel.
-/
import KernelBasecamp.Lib.CString
import KernelBasecamp.Lcd.Display

namespace KernelBasecamp.Lcd

open Lib Lib.CMem Panel

instance (ch : UInt8) : Decidable (Printable ch) := inferInstanceAs (Decidable (_ ∧ _))

variable {ioctl : Ioctl} {font : FontDef}

/-! ## Layers -/

/-- The frame buffer holds the picture, with the bytes of each colour swapped. -/
def Depicts (fb : FrameBuffer) (f : Nat → Nat → UInt16) : Prop :=
  ∀ px < LCD_WIDTH, ∀ py < LCD_HEIGHT, pixel fb px py = some (swapped (f px py))

/-- The pixels of a text that starts in the column `x` and the row `y`. -/
def letters (font : FontDef) (s : List UInt8) (color bgcolor : UInt16) (x y px py : Nat) :
    Option UInt16 :=
  if (x ≤ px ∧ px < x + s.length * font.width.toNat) ∧ (y ≤ py ∧ py < y + font.height.toNat) then
    let k := (px - x) / font.width.toNat
    let j := (px - x) % font.width.toNat
    some (if (glyphRow font (s.getD k 0) (py - y)).toNat.testBit (15 - j) then color else bgcolor)
  else none

/-- The given points in a colour, over a picture. -/
def dots (points : List (UInt16 × UInt16)) (color : UInt16) (f : Nat → Nat → UInt16)
    (px py : Nat) : UInt16 :=
  if ∃ q ∈ points, q.1.toNat = px ∧ q.2.toNat = py then color else f px py

/-- The picture of `main`: two circles over two texts over the green screen, whose last column
    and last row stay black. `date` is the first line of `time_str`. -/
def picture (font : FontDef) (date ip : List UInt8) (circle circle' : List (UInt16 × UInt16)) :
    Nat → Nat → UInt16 :=
  dots circle' COLOR_BLUE <| dots circle COLOR_BLUE fun px py =>
    (letters font ip COLOR_BLACK COLOR_GREEN 4 226 px py).getD <|
      (letters font date COLOR_BLACK COLOR_GREEN (309 - 7 * date.length) 4 px py).getD <|
        if px < LCD_WIDTH - 1 ∧ py < LCD_HEIGHT - 1 then COLOR_GREEN else COLOR_BLACK

theorem depicts_black : Depicts (Vector.replicate _ 0) fun _ _ => 0 := by
  intro px hpx py hpy
  unfold pixel
  rw [Vector.getElem?_eq_getElem (cell_lt hpx hpy), Vector.getElem_replicate]
  exact congrArg some (by decide : (0 : UInt16) = swapped 0)

/-! ## Calls -/

theorem Depicts.fill_screen (fb : FrameBuffer) {f : Nat → Nat → UInt16} (h : Depicts fb f)
    (color : UInt16) : ∃ fb', lcd_fill_screen fb color = some fb' ∧ Depicts fb' fun px py =>
      if px < LCD_WIDTH - 1 ∧ py < LCD_HEIGHT - 1 then color else f px py := by
  obtain ⟨fb', hfill, hpainted⟩ := lcd_fill_screen_painted fb color
  refine ⟨fb', hfill, fun px hpx py hpy => ?_⟩
  obtain ⟨hin, hout⟩ := hpainted px hpx py hpy
  have hrect : InRect 0 0 (UInt16.ofNat (LCD_WIDTH - 1)) (UInt16.ofNat (LCD_HEIGHT - 1)) px py ↔
      px < LCD_WIDTH - 1 ∧ py < LCD_HEIGHT - 1 := by
    change (0 ≤ px ∧ px < 0 + 319) ∧ (0 ≤ py ∧ py < 0 + 239) ↔ px < 319 ∧ py < 239
    omega
  dsimp only
  split
  · next hlt => exact hin (hrect.mpr hlt)
  · next hlt => exact (hout fun hr => hlt (hrect.mp hr)).trans (h px hpx py hpy)

theorem Depicts.draw_pixel (fb : FrameBuffer) {f : Nat → Nat → UInt16} (h : Depicts fb f)
    (q : UInt16 × UInt16) (color : UInt16) :
    ∃ fb', lcd_draw_pixel fb q.1 q.2 color = some fb' ∧ Depicts fb' (dots [q] color f) := by
  obtain ⟨fb', hdraw, hpainted⟩ := lcd_draw_pixel_painted fb q.1 q.2 color
  refine ⟨fb', hdraw, fun px hpx py hpy => ?_⟩
  obtain ⟨hin, hout⟩ := hpainted px hpx py hpy
  have hrect : InRect q.1 q.2 1 1 px py ↔ q.1.toNat = px ∧ q.2.toNat = py := by
    unfold InRect
    rw [UInt16.toNat_one]
    omega
  have hmem : (∃ r ∈ [q], r.1.toNat = px ∧ r.2.toNat = py) ↔ q.1.toNat = px ∧ q.2.toNat = py := by
    simp
  unfold dots
  rw [if_congr hmem rfl rfl]
  split
  · next heq => exact hin (hrect.mpr heq)
  · next heq => exact (hout fun hr => heq (hrect.mp hr)).trans (h px hpx py hpy)

/-- A text that fits on the screen is laid over the picture. -/
theorem Depicts.put_string (fb : FrameBuffer) {f : Nat → Nat → UInt16} (h : Depicts fb f)
    (hfont : font.WellFormed) {s : List UInt8} (hs : ∀ c ∈ s, Printable c) {stop : UInt8}
    (hstop : stop = 0 ∨ stop = 10) (t : List UInt8) {x y : UInt16} (color bgcolor : UInt16)
    (hx : x.toNat + s.length * font.width.toNat ≤ LCD_WIDTH)
    (hy : y.toNat + font.height.toNat ≤ LCD_HEIGHT) :
    ∃ fb', lcd_put_string fb x y (s ++ stop :: t) font color bgcolor = some fb' ∧
      Depicts fb' fun px py =>
        (letters font s color bgcolor x.toNat y.toNat px py).getD (f px py) := by
  have hinside : (putAll fb (textStores font color bgcolor y x.toNat s)).isSome := by
    refine (putAll_isSome_iff _ _).mpr fun p hp => ?_
    obtain ⟨k, hk, i, hi, j, hj, rfl⟩ := mem_textStores.mp hp
    exact cell_lt (column_lt hk hj hx).2 (by omega)
  obtain ⟨fb', hfb⟩ := Option.isSome_iff_exists.mp hinside
  refine ⟨fb', (lcd_put_string_eq hfont hs hstop t fb hx).trans hfb, fun px hpx py hpy => ?_⟩
  unfold letters
  dsimp only
  split
  · next hin =>
      -- the pixel is in the column `j` of the character `k`
      obtain ⟨⟨hleft, hright⟩, htop, hbottom⟩ := hin
      have hwidth : 0 < font.width.toNat := by
        refine Nat.pos_of_ne_zero fun hzero => ?_
        rw [hzero, Nat.mul_zero] at hright
        omega
      have hk : (px - x.toNat) / font.width.toNat < s.length := by
        rw [Nat.div_lt_iff_lt_mul hwidth]
        omega
      have hcol : x.toNat + (px - x.toNat) / font.width.toNat * font.width.toNat +
          (px - x.toNat) % font.width.toNat = px := by
        rw [Nat.add_assoc, Nat.div_add_mod']
        omega
      refine pixel_written hfb (textStores_singleValued hx) hpx hpy
        (mem_textStores.mpr ⟨_, hk, py - y.toNat, by omega, (px - x.toNat) % font.width.toNat,
          Nat.mod_lt _ hwidth, ?_⟩)
      rw [hcol, Nat.add_sub_cancel' htop, Option.getD_some, List.getD_eq_getElem _ _ hk]
      unfold shade
      split <;> rfl
  · next hout =>
      refine Eq.trans (pixel_kept hfb hpx hpy fun p hp hcell => hout ?_) (h px hpx py hpy)
      obtain ⟨k, hk, i, hi, j, hj, rfl⟩ := mem_textStores.mp hp
      obtain ⟨hlt, hcol⟩ := column_lt hk hj hx
      obtain ⟨rfl, rfl⟩ := (cell_inj hcol hpx).mp hcell
      omega

theorem dots_cons (q : UInt16 × UInt16) (points : List (UInt16 × UInt16)) (color : UInt16)
    (f : Nat → Nat → UInt16) :
    dots (q :: points) color f = dots points color (dots [q] color f) := by
  funext px py
  have hcons : (∃ r ∈ q :: points, r.1.toNat = px ∧ r.2.toNat = py) ↔
      (∃ r ∈ points, r.1.toNat = px ∧ r.2.toNat = py) ∨
        ∃ r ∈ [q], r.1.toNat = px ∧ r.2.toNat = py := by
    simp [or_comm]
  unfold dots
  rw [if_congr hcons rfl rfl]
  by_cases htail : ∃ r ∈ points, r.1.toNat = px ∧ r.2.toNat = py
  · rw [if_pos (.inl htail), if_pos htail]
  · rw [if_neg htail, if_congr (or_iff_right htail) rfl rfl]

theorem Depicts.put_circle (ioctl : Ioctl) (points : List (UInt16 × UInt16))
    (color : UInt16) (fb : FrameBuffer) (log : List Event) {f : Nat → Nat → UInt16}
    (h : Depicts fb f) :
    ∃ fb', (lcd_put_circle points color).foldlM (Screen.call ioctl) ⟨fb, log⟩ = some ⟨fb', log⟩ ∧
      Depicts fb' (dots points color f) := by
  induction points generalizing fb f with
  | nil =>
      refine ⟨fb, rfl, ?_⟩
      have hnone : dots [] color f = f := by
        funext px py
        exact if_neg fun ⟨_, hq, _⟩ => absurd hq List.not_mem_nil
      rwa [hnone]
  | cons q points ih =>
      obtain ⟨fb₁, hdraw, h₁⟩ := h.draw_pixel fb q color
      obtain ⟨fb', hrest, h'⟩ := ih fb₁ h₁
      refine ⟨fb', ?_, by rwa [dots_cons]⟩
      unfold lcd_put_circle
      rw [List.map_cons, List.foldlM_cons]
      change ((lcd_draw_pixel fb q.1 q.2 color).map fun fb => (⟨fb, log⟩ : Screen)).bind _ = _
      rw [hdraw]
      exact hrest

/-! ## The program -/

theorem calls_cons {s s' : Screen} {c : Call} (h : s.call ioctl c = some s') (cs : List Call) :
    (c :: cs).foldlM (Screen.call ioctl) s = cs.foldlM (Screen.call ioctl) s' := by
  rw [List.foldlM_cons, h, Option.bind_eq_bind, Option.bind_some]

theorem calls_append {s s' : Screen} {cs : List Call}
    (h : cs.foldlM (Screen.call ioctl) s = some s') (cs' : List Call) :
    (cs ++ cs').foldlM (Screen.call ioctl) s = cs'.foldlM (Screen.call ioctl) s' := by
  rw [List.foldlM_append, h, Option.bind_eq_bind, Option.bind_some]

theorem swapped_swapped (c : UInt16) : swapped (swapped c) = c := by
  apply UInt16.toNat_inj.mp
  apply Nat.eq_of_testBit_eq
  intro i
  have height : (8 : UInt16).toNat % 16 = 8 := rfl
  unfold swapped
  simp only [UInt16.toNat_or, UInt16.toNat_shiftLeft, UInt16.toNat_shiftRight, Nat.testBit_or,
    Nat.testBit_mod_two_pow, Nat.testBit_shiftLeft, Nat.testBit_shiftRight, height]
  have hout : ∀ j, 16 ≤ j → c.toNat.testBit j = false := fun j hj => Nat.testBit_lt_two_pow
    (Nat.lt_of_lt_of_le c.toNat_lt (Nat.pow_le_pow_right (by decide) hj))
  rcases Nat.lt_or_ge i 8 with hlow | hhigh
  · simp [show ¬ 8 ≤ i by omega, show 8 + i < 16 by omega, hout (8 + (8 + i)) (by omega)]
  · by_cases hi : i < 16
    · simp [hi, hhigh, hout (8 + (8 + i)) (by omega), show ¬ 8 ≤ i - 8 by omega]
    · simp [hi, hout i (by omega), hout (8 + (8 + i)) (by omega)]

/-- A panel that waits for the first pixel shows a frame, and waits for the next one. -/
theorem update_shows (h : Reliable ioctl) (fb : FrameBuffer) {log : List Event}
    (hready : ∀ p : Panel, Ready LCD_WIDTH LCD_HEIGHT (p.react log) ∧
      ((p.react log).cyclic LCD_WIDTH).cursor = 0) :
    ∃ log', lcd_update_screen ioctl fb log = some log' ∧ ∀ p : Panel,
      (Ready LCD_WIDTH LCD_HEIGHT (p.react log') ∧
        ((p.react log').cyclic LCD_WIDTH).cursor = 0) ∧ Shows (p.react log') fb := by
  obtain ⟨log', kept, hupdate, -, hall, -, hreact⟩ := lcd_update_screen_sent ioctl fb log
  refine ⟨log', hupdate, fun p => ?_⟩
  obtain ⟨hp, hcursor⟩ := hready p
  obtain ⟨hp', hstores⟩ := hreact p hp
  rw [hall h] at hstores
  obtain ⟨hcursor', hdisplaced⟩ := displaced_of_stores hp hstores
  rw [hcursor] at hcursor' hdisplaced
  exact ⟨⟨hp', hcursor'⟩, hdisplaced.shows⟩

theorem Shows.gram {p : Panel} {fb : FrameBuffer} {f : Nat → Nat → UInt16} (h : Shows p fb)
    (hf : Depicts fb f) {px py : Nat} (hpx : px < LCD_WIDTH) (hpy : py < LCD_HEIGHT) :
    p.gram px py = f px py := by
  rw [h px hpx py hpy _ (hf px hpx py hpy), swapped_swapped]

theorem call_fill_screen (s : Screen) (color : UInt16) :
    s.call ioctl (.fill_screen color) = (lcd_fill_screen s.fb color).bind fun fb =>
      (lcd_update_screen ioctl fb s.log).map (Screen.mk fb) := by
  unfold Screen.call Screen.fill_rectangle lcd_fill_screen
  dsimp only
  rw [if_neg (by decide), Option.bind_eq_bind]
  refine Option.bind_congr fun fb _ => ?_
  cases lcd_update_screen ioctl fb s.log <;> rfl

/-- The column of a text of `n` characters that ends at the column 316. -/
theorem column_toNat {n : Nat} (hn : n ≤ 45) :
    (316 - UInt64.ofNat n * (7 : UInt8).toUInt64).toUInt16.toNat = 316 - 7 * n := by
  have hseven : (7 : UInt8).toUInt64.toNat = 7 := rfl
  have hsmall : (316 : UInt64).toNat = 316 := rfl
  rw [UInt64.toNat_toUInt16, UInt64.toNat_sub, UInt64.toNat_mul, UInt64.toNat_ofNat', hseven,
    hsmall]
  omega

/-- When no transfer fails, `main` draws the date and the address without leaving the frame
    buffer, and its picture ends up on any panel; whatever the points of the circles are, those
    outside of the screen are left out. -/
theorem main_shows (h : Reliable ioctl) (hfont : font.WellFormed) (hwidth : font.width = 7)
    (hheight : font.height = 10) {date ip : List UInt8} (hdate : ∀ c ∈ date, Printable c)
    (hip : ∀ c ∈ ip, Printable c) (hdate_length : date.length ≤ 44) (hip_length : ip.length ≤ 45)
    (circle circle' : List (UInt16 × UInt16)) :
    ∃ s, main ioctl font (date ++ [10, 0]) (ip ++ [0]) circle circle' = some s ∧
      ∀ p : Panel, (p.react s.log).awake = true ∧ (p.react s.log).on = true ∧
        ∀ px < LCD_WIDTH, ∀ py < LCD_HEIGHT,
          (p.react s.log).gram px py = picture font date ip circle circle' px py := by
  have hlength : strlen (date ++ [10, 0]) = some (date.length + 1) := by
    have hzero : 0 ∉ date ++ [10] := by
      intro hmem
      rcases List.mem_append.mp hmem with hmem | hmem
      · exact absurd (hdate 0 hmem).1 (by decide)
      · exact absurd (List.mem_singleton.mp hmem) (by decide)
    have hstrlen := strlen_append hzero []
    rwa [List.append_assoc, List.length_append] at hstrlen
  obtain ⟨log₀, hstart, hready₀⟩ := start_ready h
  obtain ⟨fb₁, hfill, hfb₁⟩ := depicts_black.fill_screen _ COLOR_GREEN
  obtain ⟨log₁, hupdate₁, hready₁⟩ := update_shows h fb₁ hready₀
  have hcolumn : (316 - UInt64.ofNat (date.length + 1) * font.width.toUInt64).toUInt16.toNat =
      309 - 7 * date.length := by
    rw [hwidth, column_toNat (by omega)]
    omega
  obtain ⟨fb₂, hput₂, hfb₂⟩ := hfb₁.put_string fb₁ hfont hdate (.inr rfl) [0] COLOR_BLACK
    COLOR_GREEN
    (x := (316 - UInt64.ofNat (date.length + 1) * font.width.toUInt64).toUInt16) (y := 4)
    (by rw [hcolumn, hwidth]; unfold LCD_WIDTH; change _ + _ * 7 ≤ _; omega)
    (by rw [hheight]; decide)
  obtain ⟨fb₃, hput₃, hfb₃⟩ := hfb₂.put_string fb₂ hfont hip (.inl rfl) [] COLOR_BLACK COLOR_GREEN
    (x := 4) (y := 226)
    (by rw [hwidth]; unfold LCD_WIDTH; change 4 + _ * 7 ≤ _; omega) (by rw [hheight]; decide)
  obtain ⟨fb₄, hcircle₄, hfb₄⟩ := hfb₃.put_circle ioctl circle COLOR_BLUE fb₃ log₁
  obtain ⟨fb₅, hcircle₅, hfb₅⟩ := hfb₄.put_circle ioctl circle' COLOR_BLUE fb₄ log₁
  obtain ⟨log, hupdate, hready⟩ := update_shows h fb₅ fun p => (hready₁ p).1
  refine ⟨⟨fb₅, log⟩, ?_, fun p => ?_⟩
  · have hcall₁ : Screen.call ioctl ⟨Vector.replicate _ 0, log₀⟩ (.fill_screen COLOR_GREEN) =
        some ⟨fb₁, log₁⟩ := by
      rw [call_fill_screen, hfill, Option.bind_some, hupdate₁, Option.map_some]
    have hcall₂ : Screen.call ioctl ⟨fb₁, log₁⟩ (.put_string
        (316 - UInt64.ofNat (date.length + 1) * font.width.toUInt64).toUInt16 4 (date ++ [10, 0])
        font COLOR_BLACK COLOR_GREEN) = some ⟨fb₂, log₁⟩ := congrArg (Option.map _) hput₂
    have hcall₃ : Screen.call ioctl ⟨fb₂, log₁⟩ (.put_string 4
        (UInt16.ofInt (240 - font.height.toNat - 4)) (ip ++ [0]) font COLOR_BLACK COLOR_GREEN) =
        some ⟨fb₃, log₁⟩ := by
      rw [hheight]
      exact congrArg (Option.map _) hput₃
    have hcall₆ : Screen.call ioctl ⟨fb₅, log₁⟩ .update_screen = some ⟨fb₅, log⟩ :=
      congrArg (Option.map _) hupdate
    unfold main mainCalls
    rw [hstart, Option.bind_eq_bind, Option.bind_some, hlength, Option.bind_eq_bind,
      Option.bind_some, List.append_assoc, List.append_assoc, List.cons_append, calls_cons hcall₁,
      List.cons_append, calls_cons hcall₂, List.cons_append, calls_cons hcall₃, List.nil_append,
      calls_append hcircle₄, calls_append hcircle₅, calls_cons hcall₆]
    rfl
  · obtain ⟨⟨hp, -⟩, hshows⟩ := hready p
    refine ⟨hp.awake, hp.on, fun px hpx py hpy => ?_⟩
    have hplaces : (4 : UInt16).toNat = 4 ∧ (226 : UInt16).toNat = 226 := by decide
    rw [hshows.gram hfb₅ hpx hpy, hcolumn, hplaces.1, hplaces.2]
    rfl

/-- "31 may" and "10.1" in a font of upright lines, on the left for digits and further right for
    letters, and a circle with a point on the first "m". -/
theorem main_shows_lines :
    ∃ s, main (fun _ _ => 1) ⟨7, 10, List.replicate 475 0x8000 ++ List.replicate 475 0x4000⟩
        [0x33, 0x31, 0x20, 0x6D, 0x61, 0x79, 10, 0] [0x31, 0x30, 0x2E, 0x31, 0] [(5, 6), (289, 5)]
        [(7, 400)] = some s ∧
      ∀ p : Panel, (p.react s.log).gram 267 4 = COLOR_BLACK ∧
        (p.react s.log).gram 268 4 = COLOR_GREEN ∧ (p.react s.log).gram 289 4 = COLOR_BLACK ∧
        (p.react s.log).gram 289 5 = COLOR_BLUE ∧ (p.react s.log).gram 11 235 = COLOR_BLACK ∧
        (p.react s.log).gram 5 6 = COLOR_BLUE ∧ (p.react s.log).gram 319 0 = COLOR_BLACK := by
  have hgood : Reliable fun _ _ => 1 := fun _ _ => Int.le_refl 1
  have hfont : FontDef.WellFormed
      ⟨7, 10, List.replicate 475 0x8000 ++ List.replicate 475 0x4000⟩ :=
    ⟨by decide, by rw [List.length_append, List.length_replicate, List.length_replicate]; decide⟩
  have hdate : ∀ c ∈ [(0x33 : UInt8), 0x31, 0x20, 0x6D, 0x61, 0x79], Printable c := by
    decide +kernel
  have hip : ∀ c ∈ [(0x31 : UInt8), 0x30, 0x2E, 0x31], Printable c := by
    decide +kernel
  obtain ⟨s, hs, hshown⟩ := main_shows hgood hfont rfl rfl hdate hip (by decide) (by decide)
    [(5, 6), (289, 5)] [(7, 400)]
  refine ⟨s, hs, fun p => ?_⟩
  obtain ⟨-, -, hgram⟩ := hshown p
  exact ⟨(hgram 267 (by decide) 4 (by decide)).trans (by decide +kernel),
    (hgram 268 (by decide) 4 (by decide)).trans (by decide +kernel),
    (hgram 289 (by decide) 4 (by decide)).trans (by decide +kernel),
    (hgram 289 (by decide) 5 (by decide)).trans (by decide +kernel),
    (hgram 11 (by decide) 235 (by decide)).trans (by decide +kernel),
    (hgram 5 (by decide) 6 (by decide)).trans (by decide +kernel),
    (hgram 319 (by decide) 0 (by decide)).trans (by decide +kernel)⟩

end KernelBasecamp.Lcd
