/-
  What `lcd_fill_rectangle` paints.

  A size is clipped when the rectangle ends two or more pixels beyond the edge; at one pixel
  beyond it is not (`clip`). The column 320 is the first pixel of the next row in the flat buffer,
  and the row 240 is outside of it (`Spilled`, `fillStores_inside_iff`).

  * `fill_rectangle_iff`: which calls paint the clipped rectangle and nothing else.
  * `lcd_fill_screen_painted`, `lcd_draw_pixel_painted`: the callers that never end one pixel
    beyond an edge; the whole screen is filled but for its last column and row.
-/
import KernelBasecamp.Lcd.FrameBuffer

namespace KernelBasecamp.Lcd

open Lib

/-- The rectangle, cut off at the edges of the screen. -/
def InRect (x y w h : UInt16) (px py : Nat) : Prop :=
  (x.toNat ≤ px ∧ px < x.toNat + w.toNat) ∧ (y.toNat ≤ py ∧ py < y.toNat + h.toNat)

/-- `fb'` is `fb` with the rectangle painted and nothing else. -/
def Painted (fb fb' : FrameBuffer) (x y w h color : UInt16) : Prop :=
  ∀ px < LCD_WIDTH, ∀ py < LCD_HEIGHT,
    (InRect x y w h px py → pixel fb' px py = some (swapped color)) ∧
      (¬ InRect x y w h px py → pixel fb' px py = pixel fb px py)

/-- The stores of `lcd_fill_rectangle`. -/
def fillStores (x y w h color : UInt16) : List (Nat × UInt16) :=
  box LCD_WIDTH (x.toNat + LCD_WIDTH * y.toNat) (clip LCD_WIDTH x.toNat w.toNat)
    (clip LCD_HEIGHT y.toNat h.toNat) fun _ _ => swapped color

/-- The column one beyond the right edge: in the flat buffer, the first pixels of the next
    rows. -/
def Spilled (x y w h : UInt16) (px py : Nat) : Prop :=
  x.toNat + w.toNat = LCD_WIDTH + 1 ∧ px = 0 ∧ y.toNat < py ∧ py ≤ y.toNat + h.toNat

variable {fb fb' : FrameBuffer} {x y w h color : UInt16} {px py : Nat}

/-! ## The stores -/

theorem lt_clip_iff {limit start size i : Nat} (h : start < limit) :
    i < clip limit start size ↔ i < size ∧ (start + i < limit ∨ start + size = limit + 1) := by
  unfold clip
  split <;> omega

theorem lcd_fill_rectangle_eq (hx : x.toNat < LCD_WIDTH) (hy : y.toNat < LCD_HEIGHT) :
    lcd_fill_rectangle fb x y w h color = putAll fb (fillStores x y w h color) := by
  unfold lcd_fill_rectangle
  rw [if_neg (by omega)]
  exact foldlM_box ..

theorem mem_fillStores (color : UInt16) (hx : x.toNat < LCD_WIDTH) (hy : y.toNat < LCD_HEIGHT)
    {p : Nat × UInt16} :
    p ∈ fillStores x y w h color ↔
      ∃ j, (j < h.toNat ∧ (y.toNat + j < LCD_HEIGHT ∨ y.toNat + h.toNat = LCD_HEIGHT + 1)) ∧
        ∃ i, (i < w.toNat ∧ (x.toNat + i < LCD_WIDTH ∨ x.toNat + w.toNat = LCD_WIDTH + 1)) ∧
          p = (x.toNat + i + LCD_WIDTH * (y.toNat + j), swapped color) := by
  simp only [fillStores, mem_box, cell_add, lt_clip_iff hx, lt_clip_iff hy]

theorem fillStores_singleValued (color : UInt16) (hx : x.toNat < LCD_WIDTH)
    (hy : y.toNat < LCD_HEIGHT) :
    SingleValued (fillStores x y w h color) := by
  intro p hp q hq _
  obtain ⟨_, _, _, _, rfl⟩ := (mem_fillStores _ hx hy).mp hp
  obtain ⟨_, _, _, _, rfl⟩ := (mem_fillStores _ hx hy).mp hq
  rfl

/-- No index is out of range unless the rectangle ends exactly one row below the screen, or one
    column beside it and not above the last row. -/
theorem fillStores_inside_iff (color : UInt16) (hx : x.toNat < LCD_WIDTH)
    (hy : y.toNat < LCD_HEIGHT) :
    (∀ p ∈ fillStores x y w h color, p.1 < LCD_WIDTH * LCD_HEIGHT) ↔
      w.toNat = 0 ∨ h.toNat = 0 ∨ (y.toNat + h.toNat ≠ LCD_HEIGHT + 1 ∧
        (x.toNat + w.toNat = LCD_WIDTH + 1 → y.toNat + h.toNat < LCD_HEIGHT)) := by
  have hmem := fun p => mem_fillStores (w := w) (h := h) color hx hy (p := p)
  unfold LCD_WIDTH LCD_HEIGHT at *
  constructor
  · intro hall
    by_contra hcond
    by_cases hrow : y.toNat + h.toNat = 240 + 1
    · -- the first pixel of the row below the screen
      have hlt := hall _ ((hmem _).mpr ⟨h.toNat - 1, by omega, 0, by omega, rfl⟩)
      dsimp only at hlt
      omega
    · -- the pixel beside the last row
      have hlt := hall _ ((hmem _).mpr
        ⟨min h.toNat (240 - y.toNat) - 1, by omega, w.toNat - 1, by omega, rfl⟩)
      dsimp only at hlt
      omega
  · rintro hcond p hp
    obtain ⟨j, hj, i, hi, rfl⟩ := (hmem p).mp hp
    dsimp only
    omega

/-- The pixels of the screen that are stored to. -/
theorem stored_iff (hx : x.toNat < LCD_WIDTH) (hy : y.toNat < LCD_HEIGHT) (hpx : px < LCD_WIDTH)
    (hpy : py < LCD_HEIGHT) :
    (px + LCD_WIDTH * py, swapped color) ∈ fillStores x y w h color ↔
      InRect x y w h px py ∨ Spilled x y w h px py := by
  rw [mem_fillStores _ hx hy]
  unfold InRect Spilled LCD_WIDTH LCD_HEIGHT at *
  constructor
  · rintro ⟨j, hj, i, hi, hp⟩
    have hcell := congrArg Prod.fst hp
    dsimp only at hcell
    by_cases hin : x.toNat + i < 320
    · exact .inl (by omega)
    · exact .inr (by omega)
  · rintro (hin | hin)
    · exact ⟨py - y.toNat, by omega, px - x.toNat, by omega, Prod.ext (by dsimp only; omega) rfl⟩
    · exact ⟨py - y.toNat - 1, by omega, w.toNat - 1, by omega,
        Prod.ext (by dsimp only; omega) rfl⟩

/-! ## The picture -/

/-- The painted picture: the rectangle, and the pixels it spills over to had the colour
    already. -/
theorem painted_iff (hx : x.toNat < LCD_WIDTH) (hy : y.toNat < LCD_HEIGHT)
    (h' : putAll fb (fillStores x y w h color) = some fb') :
    Painted fb fb' x y w h color ↔ ∀ px < LCD_WIDTH, ∀ py < LCD_HEIGHT, Spilled x y w h px py →
      InRect x y w h px py ∨ pixel fb px py = some (swapped color) := by
  have hsingle := fillStores_singleValued (w := w) (h := h) color hx hy
  have hstored : ∀ px < LCD_WIDTH, ∀ py < LCD_HEIGHT,
      InRect x y w h px py ∨ Spilled x y w h px py → pixel fb' px py = some (swapped color) :=
    fun px hpx py hpy hin =>
      pixel_written h' hsingle hpx hpy ((stored_iff hx hy hpx hpy).mpr hin)
  constructor
  · intro hpainted px hpx py hpy hspill
    by_cases hin : InRect x y w h px py
    · exact .inl hin
    · exact .inr (((hpainted px hpx py hpy).2 hin).symm.trans
        (hstored px hpx py hpy (.inr hspill)))
  · intro hspill px hpx py hpy
    refine ⟨fun hin => hstored px hpx py hpy (.inl hin), fun hin => ?_⟩
    by_cases hsp : Spilled x y w h px py
    · rw [(hspill px hpx py hpy hsp).resolve_left hin]
      exact hstored px hpx py hpy (.inr hsp)
    · refine pixel_kept h' hpx hpy fun p hp hcell => ?_
      obtain ⟨i, a⟩ := p
      dsimp only at hcell
      subst hcell
      obtain ⟨_, _, _, _, heq⟩ := (mem_fillStores _ hx hy).mp hp
      obtain rfl : a = swapped color := congrArg Prod.snd heq
      exact ((stored_iff hx hy hpx hpy).mp hp).elim hin hsp

theorem painted_off (h' : LCD_WIDTH ≤ x.toNat ∨ LCD_HEIGHT ≤ y.toNat) :
    Painted fb fb x y w h color := by
  refine fun px hpx py hpy => ⟨fun hin => ?_, fun _ => rfl⟩
  obtain ⟨hx, hy⟩ := hin
  omega

/-- A rectangle that starts on the screen and does not end one pixel beyond an edge. -/
theorem lcd_fill_rectangle_painted (fb : FrameBuffer) (color : UInt16)
    (hx : x.toNat < LCD_WIDTH) (hy : y.toNat < LCD_HEIGHT)
    (hcol : x.toNat + w.toNat ≠ LCD_WIDTH + 1) (hrow : y.toNat + h.toNat ≠ LCD_HEIGHT + 1) :
    ∃ fb', lcd_fill_rectangle fb x y w h color = some fb' ∧ Painted fb fb' x y w h color := by
  have hinside := (fillStores_inside_iff (w := w) (h := h) color hx hy).mpr
    (.inr (.inr ⟨hrow, fun hbeside => absurd hbeside hcol⟩))
  obtain ⟨fb', hfb⟩ := Option.isSome_iff_exists.mp ((putAll_isSome_iff fb _).mpr hinside)
  exact ⟨fb', (lcd_fill_rectangle_eq hx hy).trans hfb,
    (painted_iff hx hy hfb).mpr fun _ _ _ _ hspill => absurd hspill.1 hcol⟩

/-- The screen is filled but for its last column and its last row. -/
theorem lcd_fill_screen_painted (fb : FrameBuffer) (color : UInt16) :
    ∃ fb', lcd_fill_screen fb color = some fb' ∧
      Painted fb fb' 0 0 (UInt16.ofNat (LCD_WIDTH - 1)) (UInt16.ofNat (LCD_HEIGHT - 1)) color :=
  lcd_fill_rectangle_painted fb color (by decide) (by decide) (by decide) (by decide)

/-- A pixel is a rectangle of one pixel, which never ends beyond an edge. -/
theorem lcd_draw_pixel_eq (fb : FrameBuffer) (x y color : UInt16) :
    lcd_draw_pixel fb x y color = lcd_fill_rectangle fb x y 1 1 color := by
  have hclip : ∀ {limit start : Nat}, start < limit → clip limit start 1 = 1 := by
    intro limit start hlt
    unfold clip
    rw [if_neg (by omega)]
  unfold lcd_draw_pixel lcd_fill_rectangle
  split
  · rfl
  · next hoff =>
      dsimp only
      rw [UInt16.toNat_one, hclip (by omega), hclip (by omega)]
      simp [List.range_succ]

theorem lcd_draw_pixel_painted (fb : FrameBuffer) (x y color : UInt16) :
    ∃ fb', lcd_draw_pixel fb x y color = some fb' ∧ Painted fb fb' x y 1 1 color := by
  rw [lcd_draw_pixel_eq]
  by_cases hoff : LCD_WIDTH ≤ x.toNat ∨ LCD_HEIGHT ≤ y.toNat
  · exact ⟨fb, if_pos hoff, painted_off hoff⟩
  · refine lcd_fill_rectangle_painted fb color (by omega) (by omega) ?_ ?_ <;>
      rw [UInt16.toNat_one] <;> omega

/-- `lcd_fill_rectangle` stays inside the frame buffer and paints the clipped rectangle and
    nothing else, if and only if the rectangle is off the screen or empty, or does not end
    exactly one pixel beyond an edge; one beyond the right edge is harmless above the last row
    when the pixels it spills over to are painted anyway or have the colour already. -/
theorem fill_rectangle_iff (fb : FrameBuffer) (x y w h color : UInt16) :
    (∃ fb', lcd_fill_rectangle fb x y w h color = some fb' ∧ Painted fb fb' x y w h color) ↔
      LCD_WIDTH ≤ x.toNat ∨ LCD_HEIGHT ≤ y.toNat ∨ w = 0 ∨ h = 0 ∨
        (y.toNat + h.toNat ≠ LCD_HEIGHT + 1 ∧
          (x.toNat + w.toNat = LCD_WIDTH + 1 → y.toNat + h.toNat < LCD_HEIGHT ∧
            ∀ py, y.toNat < py → py ≤ y.toNat + h.toNat →
              InRect x y w h 0 py ∨ pixel fb 0 py = some (swapped color))) := by
  by_cases hoff : LCD_WIDTH ≤ x.toNat ∨ LCD_HEIGHT ≤ y.toNat
  · exact iff_of_true ⟨fb, if_pos hoff, painted_off hoff⟩ (hoff.imp_right .inl)
  obtain ⟨hx, hy⟩ : x.toNat < LCD_WIDTH ∧ y.toNat < LCD_HEIGHT := by omega
  have hinside := (putAll_isSome_iff fb _).trans
    (fillStores_inside_iff (w := w) (h := h) color hx hy)
  have hw : w = 0 ↔ w.toNat = 0 := UInt16.toNat_inj.symm
  have hh : h = 0 ↔ h.toNat = 0 := UInt16.toNat_inj.symm
  rw [lcd_fill_rectangle_eq hx hy, hw, hh]
  constructor
  · rintro ⟨fb', hfb, hpainted⟩
    rcases hinside.mp (by rw [hfb]; rfl) with h₀ | h₀ | ⟨hrow, hcol⟩
    · exact .inr (.inr (.inl h₀))
    · exact .inr (.inr (.inr (.inl h₀)))
    · refine .inr (.inr (.inr (.inr ⟨hrow, fun hbeside => ⟨hcol hbeside, fun py hlo hhi => ?_⟩⟩)))
      have hlast := hcol hbeside
      exact (painted_iff hx hy hfb).mp hpainted 0 (by decide) py (by omega)
        ⟨hbeside, rfl, hlo, hhi⟩
  · intro hcond
    have hcond := (hcond.resolve_left (by omega)).resolve_left (by omega)
    have hsome : (putAll fb (fillStores x y w h color)).isSome :=
      hinside.mpr (hcond.imp_right (.imp_right fun ⟨hrow, hcol⟩ =>
        ⟨hrow, fun hbeside => (hcol hbeside).1⟩))
    obtain ⟨fb', hfb⟩ := Option.isSome_iff_exists.mp hsome
    refine ⟨fb', hfb, (painted_iff hx hy hfb).mpr ?_⟩
    rintro px hpx py hpy ⟨hbeside, rfl, hlo, hhi⟩
    rcases hcond with h₀ | h₀ | ⟨-, hcol⟩
    · omega
    · omega
    · exact (hcol hbeside).2 py hlo hhi

/-- On a cleared screen, a rectangle that ends one column beyond the right edge paints the first
    pixel of the next row, and one that ends one row below the screen leaves the buffer. -/
theorem spilled_pixel :
    (∃ fb', lcd_fill_rectangle (Vector.replicate _ 0) 319 0 2 1 0xFFFF = some fb' ∧
      ¬ InRect 319 0 2 1 0 1 ∧ pixel (Vector.replicate _ 0) 0 1 = some 0 ∧
      pixel fb' 0 1 = some 0xFFFF) ∧
    lcd_fill_rectangle (Vector.replicate _ 0) 0 239 1 2 0xFFFF = none := by
  constructor
  · have hx : (319 : UInt16).toNat < LCD_WIDTH := by decide
    have hy : (0 : UInt16).toNat < LCD_HEIGHT := by decide
    have hsome : (putAll (Vector.replicate (LCD_WIDTH * LCD_HEIGHT) 0)
        (fillStores 319 0 2 1 0xFFFF)).isSome :=
      (putAll_isSome_iff _ _).mpr ((fillStores_inside_iff _ hx hy).mpr (by decide))
    obtain ⟨fb', hfb⟩ := Option.isSome_iff_exists.mp hsome
    refine ⟨fb', (lcd_fill_rectangle_eq hx hy).trans hfb, fun h => absurd h.1.1 (by decide), ?_, ?_⟩
    · unfold pixel
      rw [Vector.getElem?_replicate, if_pos (by decide)]
    · exact pixel_written hfb (fillStores_singleValued _ hx hy) (by decide) (by decide)
        ((stored_iff hx hy (by decide) (by decide)).mpr (.inr ⟨rfl, rfl, by decide, by decide⟩))
  · have hx : (0 : UInt16).toNat < LCD_WIDTH := by decide
    have hy : (239 : UInt16).toNat < LCD_HEIGHT := by decide
    rw [lcd_fill_rectangle_eq hx hy, ← Option.not_isSome_iff_eq_none, putAll_isSome_iff,
      fillStores_inside_iff _ hx hy]
    decide

end KernelBasecamp.Lcd
