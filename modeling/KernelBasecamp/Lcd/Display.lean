/-
  What the display shows while the demo of task04 runs.

  A `Machine` is the program's frame buffer together with the panel that its transfers reach. A
  call is made with answers of the driver of its own, and these may differ from one transfer of
  the call to the next, so that any of them may fail.

  * `displaced_run`: over any sequence of calls the cursor is behind by what the failed transfers
    have lost, and a frame that arrives whole is displaced by as much.
  * `shown_run`, `main_shown`: without failures the panel shows what was sent last.
-/
import KernelBasecamp.Lib.Run
import KernelBasecamp.Lcd.Start
import KernelBasecamp.Lcd.Rectangle
import KernelBasecamp.Lcd.Text

namespace KernelBasecamp.Lcd

open Lib Panel

variable {ioctl : Ioctl}

/-! ## Frames -/

/-- Of transfers that send blocks of cells, cells arrive. -/
theorem delivered_cells {calls : List SpiCall} {css : List (List UInt16)}
    (h : List.Forall₂ Sends calls (css.map (·.flatMap bytesOf))) :
    ∃ kept : List UInt16, kept.Sublist css.flatten ∧ delivered calls = kept.flatMap bytesOf := by
  induction css generalizing calls with
  | nil =>
      cases h
      exact ⟨[], List.Sublist.slnil, rfl⟩
  | cons cs css ih =>
      rw [List.map_cons] at h
      obtain ⟨c, rest, hc, hrest, rfl⟩ := List.forall₂_cons_right_iff.mp h
      obtain ⟨kept, hsub, hkept⟩ := ih hrest
      rw [delivered_cons, hkept, List.flatten_cons]
      by_cases hret : 1 ≤ c.ret
      · refine ⟨cs ++ kept, hsub.append_left cs, ?_⟩
        rw [List.flatMap_append, ← hc.buf]
        simp [delivered, hret]
      · refine ⟨kept, hsub.trans (List.sublist_append_right cs _), ?_⟩
        simp [delivered, hret]

/-- The number of cells of the screen. -/
abbrev cellCount : Nat := LCD_WIDTH * LCD_HEIGHT

/-- A frame for a panel that waits for pixels: the cells whose transfers succeed are stored, and
    the others are lost. -/
theorem lcd_update_screen_sent (ioctl : Ioctl) (fb : FrameBuffer) (log : List Event) :
    ∃ log' kept, lcd_update_screen ioctl fb log = some log' ∧ List.Sublist kept fb.toList ∧
      (Reliable ioctl → kept = fb.toList) ∧
      (lost log' + 2 * kept.length = lost log + 2 * cellCount) ∧
      ∀ p : Panel, Ready LCD_WIDTH LCD_HEIGHT (p.react log) →
        Ready LCD_WIDTH LCD_HEIGHT (p.react log') ∧
        (p.react log').cyclic LCD_WIDTH = Cyclic.stores cellCount
          ((p.react log).cyclic LCD_WIDTH) (kept.map swapped) := by
  obtain ⟨log', calls, hwrite, hsent⟩ :=
    lcd_write_data_sent ioctl (fb.toList.flatMap bytesOf) log
  have hlen : (fb.toList.flatMap bytesOf).length = 2 * LCD_WIDTH * LCD_HEIGHT := by
    rw [length_flatMap_bytesOf, Vector.length_toList, Nat.mul_assoc]
  have hblocks : blocks DATA_SIZE DATA_SIZE_pos (fb.toList.flatMap bytesOf) =
      (blocks 500 (by decide) fb.toList).map (·.flatMap bytesOf) :=
    blocks_flatMap (n := 500) (k := 2) (f := bytesOf) (by decide) (by decide) (fun _ => rfl) _
  have hsends := hsent.sends
  rw [hblocks] at hsends
  obtain ⟨kept, hsub, hkept⟩ := delivered_cells hsends
  rw [blocks_flatten] at hsub
  have hlost := hsent.lost
  rw [hkept, blocks_flatten, hlen, length_flatMap_bytesOf, Nat.mul_assoc] at hlost
  rw [hlen] at hwrite
  refine ⟨log', kept, hwrite, hsub, fun h => ?_, hlost, fun p hp => ?_⟩
  · have hall := congrArg List.length (h.delivered hsent)
    rw [hkept, blocks_flatten, length_flatMap_bytesOf, length_flatMap_bytesOf] at hall
    exact hsub.eq_of_length (Nat.eq_of_mul_eq_mul_left (by decide) hall)
  · have hset : Ready LCD_WIDTH LCD_HEIGHT { p.react log with data := true } :=
      ⟨hp.awake, hp.on, hp.selected, hp.reset, hp.command, hp.columns, hp.pages, hp.half,
        hp.format, hp.x, hp.y⟩
    obtain ⟨hready, -, hcyclic⟩ := hset.bytes rfl kept
    rw [hsent.react, hkept]
    exact ⟨hready, hcyclic⟩

/-! ## The machine -/

/-- `lost` counts the bytes of failed transfers since the start; the code does not read it. -/
structure Machine where
  fb : FrameBuffer
  panel : Panel
  lost : Nat

/-- A drawing call, with the answers of the driver. -/
def Machine.step (m : Machine) (i : Ioctl × Call) : Option Machine :=
  (Screen.call i.1 ⟨m.fb, []⟩ i.2).map fun s =>
    { fb := s.fb, panel := m.panel.react s.log, lost := m.lost + Lcd.lost s.log }

/-- The program after its start, with a panel that was in the state `p`. -/
def Machine.start (ioctl : Ioctl) (p : Panel) : Option Machine :=
  (Lcd.start ioctl []).map fun log => ⟨Vector.replicate _ 0, p.react log, 0⟩

/-- The call ends in an update. -/
def Call.sends : Call → Bool
  | .fill_rectangle x y _ _ _ => x.toNat < LCD_WIDTH ∧ y.toNat < LCD_HEIGHT
  | .fill_screen _ => true
  | .update_screen => true
  | _ => false

theorem call_cases {s s' : Screen} {c : Call} (h : s.call ioctl c = some s') :
    if c.sends then lcd_update_screen ioctl s'.fb s.log = some s'.log else s'.log = s.log := by
  have hfill : ∀ {x y w h color : UInt16}, s.fill_rectangle ioctl x y w h color = some s' →
      if (Call.fill_rectangle x y w h color).sends then
        lcd_update_screen ioctl s'.fb s.log = some s'.log
      else s'.log = s.log := by
    intro x y w h color hs
    unfold Screen.fill_rectangle at hs
    unfold Call.sends
    split at hs
    · next hoff =>
        cases hs
        rw [if_neg (by rw [decide_eq_true_iff]; omega)]
    · next hoff =>
        obtain ⟨fb, -, hs⟩ := Option.bind_eq_some_iff.mp hs
        obtain ⟨log, hlog, hs⟩ := Option.bind_eq_some_iff.mp hs
        cases hs
        rw [if_pos (by rw [decide_eq_true_iff]; omega)]
        exact hlog
  cases c with
  | draw_pixel x y color =>
      obtain ⟨fb, -, rfl⟩ := Option.map_eq_some_iff.mp h
      exact rfl
  | put_string x y text font color bgcolor =>
      obtain ⟨fb, -, rfl⟩ := Option.map_eq_some_iff.mp h
      exact rfl
  | update_screen =>
      obtain ⟨log, hlog, rfl⟩ := Option.map_eq_some_iff.mp h
      exact hlog
  | fill_rectangle x y w h color => exact hfill ‹_›
  | fill_screen color => exact hfill (x := 0) (y := 0) h

/-- The cells of the frame buffer are shown `k` cells behind their places, and those that would
    be behind the last row from the first row on. -/
def Displaced (p : Panel) (fb : FrameBuffer) (k : Nat) : Prop :=
  ∀ px < LCD_WIDTH, ∀ py < LCD_HEIGHT, ∀ c, pixel fb px py = some c →
    (p.cyclic LCD_WIDTH).cells ((k + (px + LCD_WIDTH * py)) % cellCount) = swapped c

/-- The picture in the frame buffer is on the panel, pixel by pixel. -/
def Shows (p : Panel) (fb : FrameBuffer) : Prop :=
  ∀ px < LCD_WIDTH, ∀ py < LCD_HEIGHT, ∀ c, pixel fb px py = some c → p.gram px py = swapped c

theorem Displaced.shows {p : Panel} {fb : FrameBuffer} (h : Displaced p fb 0) : Shows p fb := by
  intro px hpx py hpy c hc
  have hcell := h px hpx py hpy c hc
  obtain ⟨hmod, hdiv⟩ := (cell_eq_iff (y := py) hpx).mp rfl
  rw [Nat.zero_add, Nat.mod_eq_of_lt (cell_lt hpx hpy)] at hcell
  change p.gram ((px + LCD_WIDTH * py) % LCD_WIDTH) ((px + LCD_WIDTH * py) / LCD_WIDTH) = _ at hcell
  rwa [hmod, hdiv] at hcell

/-- A frame that arrives whole is stored from the cursor on, and leaves the cursor where it was. -/
theorem displaced_of_stores {p p' : Panel} {fb : FrameBuffer}
    (hp : Ready LCD_WIDTH LCD_HEIGHT p) (hstores : p'.cyclic LCD_WIDTH =
      Cyclic.stores cellCount (p.cyclic LCD_WIDTH) (fb.toList.map swapped)) :
    (p'.cyclic LCD_WIDTH).cursor = (p.cyclic LCD_WIDTH).cursor ∧
      Displaced p' fb (p.cyclic LCD_WIDTH).cursor := by
  have hlen : (fb.toList.map swapped).length = cellCount := by
    rw [List.length_map, Vector.length_toList]
  obtain ⟨hcursor, hcells⟩ := Cyclic.stores_full hp.cursor_lt hlen
  rw [← hstores] at hcursor hcells
  refine ⟨hcursor, fun px _ py _ c hc => hcells _ _ ?_⟩
  unfold pixel at hc
  rw [List.getElem?_map, Vector.getElem?_toList, hc, Option.map_some]

/-! ## Steps -/

/-- The panel waits for pixels, and its cursor is behind by what was lost. -/
structure Sound (m : Machine) : Prop where
  ready : Ready LCD_WIDTH LCD_HEIGHT m.panel
  behind : (2 * (m.panel.cyclic LCD_WIDTH).cursor + m.lost) % (2 * cellCount) = 0

theorem Machine.step_silent {m m' : Machine} {i : Ioctl × Call}
    (hs : m.step i = some m') (hi : i.2.sends = false) : m'.panel = m.panel ∧ m'.lost = m.lost := by
  obtain ⟨s, hcall, rfl⟩ := Option.map_eq_some_iff.mp hs
  have hlog := call_cases hcall
  rw [hi, if_neg Bool.false_ne_true] at hlog
  dsimp only at hlog ⊢
  rw [hlog]
  exact ⟨rfl, rfl⟩

/-- A call that ends in an update stores what arrives of the frame. -/
theorem Machine.step_sends {m m' : Machine} {i : Ioctl × Call}
    (hm : Ready LCD_WIDTH LCD_HEIGHT m.panel) (hs : m.step i = some m') (hi : i.2.sends = true) :
    Ready LCD_WIDTH LCD_HEIGHT m'.panel ∧ ∃ kept, List.Sublist kept m'.fb.toList ∧
      (Reliable i.1 → kept = m'.fb.toList) ∧
      m'.panel.cyclic LCD_WIDTH = Cyclic.stores cellCount (m.panel.cyclic LCD_WIDTH)
        (kept.map swapped) ∧
      m'.lost + 2 * kept.length = m.lost + 2 * cellCount := by
  obtain ⟨s, hcall, rfl⟩ := Option.map_eq_some_iff.mp hs
  have hlog := call_cases hcall
  rw [hi, if_pos rfl] at hlog
  obtain ⟨log, kept, hlog', hsub, hall, hlost, hreact⟩ := lcd_update_screen_sent i.1 s.fb []
  obtain rfl : log = s.log := Option.some.inj (hlog'.symm.trans hlog)
  obtain ⟨hready, hcyclic⟩ := hreact m.panel hm
  refine ⟨hready, kept, hsub, hall, hcyclic, ?_⟩
  change Lcd.lost s.log + _ = 0 + _ at hlost
  dsimp only
  omega

theorem Sound.step {m m' : Machine} {i : Ioctl × Call} (hm : Sound m)
    (hs : m.step i = some m') : Sound m' := by
  cases hi : i.2.sends with
  | false =>
      obtain ⟨hpanel, hlost⟩ := Machine.step_silent hs hi
      exact ⟨by rw [hpanel]; exact hm.ready, by rw [hpanel, hlost]; exact hm.behind⟩
  | true =>
      obtain ⟨hready, kept, hsub, -, hcyclic, hlost⟩ := Machine.step_sends hm.ready hs hi
      refine ⟨hready, ?_⟩
      have hcursor : (m'.panel.cyclic LCD_WIDTH).cursor =
          ((m.panel.cyclic LCD_WIDTH).cursor + kept.length) % cellCount := by
        rw [hcyclic, Cyclic.stores_cursor hm.ready.cursor_lt, List.length_map]
      have hle : kept.length ≤ cellCount := hsub.length_le.trans_eq Vector.length_toList
      have hbehind := hm.behind
      have hnum : cellCount = 76800 := rfl
      rw [hcursor]
      rw [hnum] at hle hbehind hlost ⊢
      omega

/-- Without failures nothing more is lost. -/
theorem Machine.step_reliable {m m' : Machine} {i : Ioctl × Call} (hm : Sound m)
    (hs : m.step i = some m') (hi : Reliable i.1) : m'.lost = m.lost := by
  cases hsends : i.2.sends with
  | false => exact (Machine.step_silent hs hsends).2
  | true =>
      obtain ⟨-, kept, -, hall, -, hlost⟩ := Machine.step_sends hm.ready hs hsends
      rw [hall hi, show m'.fb.toList.length = cellCount from Vector.length_toList] at hlost
      omega

/-- A frame of which nothing is lost is displaced by where the cursor is. -/
theorem Machine.step_displaced {m m' : Machine} {i : Ioctl × Call} (hm : Sound m)
    (hs : m.step i = some m') (hsends : i.2.sends = true) (hwhole : m'.lost = m.lost) :
    Displaced m'.panel m'.fb (m'.panel.cyclic LCD_WIDTH).cursor := by
  obtain ⟨-, kept, hsub, -, hcyclic, hlost⟩ := Machine.step_sends hm.ready hs hsends
  have hlen : kept.length = m'.fb.toList.length := by
    rw [show m'.fb.toList.length = cellCount from Vector.length_toList]
    omega
  rw [hsub.eq_of_length hlen] at hcyclic
  obtain ⟨hcursor, hdisplaced⟩ := displaced_of_stores hm.ready hcyclic
  rwa [hcursor]

theorem Machine.step_update (m : Machine) (ioctl : Ioctl) :
    ∃ m', m.step (ioctl, .update_screen) = some m' := by
  obtain ⟨log, -, hlog, -⟩ := lcd_update_screen_sent ioctl m.fb []
  unfold Machine.step Screen.call
  dsimp only
  rw [hlog]
  exact ⟨_, rfl⟩

/-! ## Runs -/

theorem Machine.start_reliable (h : Reliable ioctl) (p : Panel) :
    ∃ m, Machine.start ioctl p = some m := by
  obtain ⟨log, hlog, -⟩ := start_ready h
  unfold Machine.start
  rw [hlog]
  exact ⟨_, rfl⟩

theorem sound_start {m : Machine} (h : Reliable ioctl) {p : Panel}
    (hs : Machine.start ioctl p = some m) : Sound m ∧ m.lost = 0 := by
  obtain ⟨log, hlog, hready⟩ := start_ready h
  unfold Machine.start at hs
  rw [hlog, Option.map_some] at hs
  cases hs
  refine ⟨⟨(hready p).1, ?_⟩, rfl⟩
  dsimp only
  rw [(hready p).2]
  rfl

theorem sound_run {m m' : Machine} {inputs : List (Ioctl × Call)} (hm : Sound m)
    (hrun : run Machine.step m inputs = some m') : Sound m' :=
  run_invariant Sound hm (fun _ _ _ h hs => h.step hs) hrun

/-- Calls that do not end in an update leave the panel alone. -/
theorem silent_run {m m' : Machine} {inputs : List (Ioctl × Call)}
    (hsilent : ∀ i ∈ inputs, i.2.sends = false) (hrun : run Machine.step m inputs = some m') :
    m'.panel = m.panel ∧ m'.lost = m.lost := by
  induction inputs generalizing m with
  | nil => cases hrun; exact ⟨rfl, rfl⟩
  | cons i inputs ih =>
      obtain ⟨m₁, hstep, hrest⟩ := Option.bind_eq_some_iff.mp hrun
      obtain ⟨hi, hinputs⟩ := List.forall_mem_cons.mp hsilent
      obtain ⟨hpanel, hlost⟩ := Machine.step_silent hstep hi
      obtain ⟨hpanel', hlost'⟩ := ih hinputs hrest
      exact ⟨hpanel'.trans hpanel, hlost'.trans hlost⟩

/-- Whatever transfers have failed before, a frame of which nothing is lost is shown displaced by
    the number of pixels lost since the start, and stays so until the next update. -/
theorem displaced_run (h : Reliable ioctl) {p : Panel} {m₀ m₁ m₂ m₃ : Machine}
    {before after : List (Ioctl × Call)} {i : Ioctl × Call}
    (hstart : Machine.start ioctl p = some m₀) (hbefore : run Machine.step m₀ before = some m₁)
    (hsends : i.2.sends = true) (hstep : m₁.step i = some m₂) (hwhole : m₂.lost = m₁.lost)
    (hsilent : ∀ j ∈ after, j.2.sends = false) (hafter : run Machine.step m₂ after = some m₃) :
    m₃.panel.awake = true ∧ m₃.panel.on = true ∧ ∃ k < cellCount,
      (2 * k + m₃.lost) % (2 * cellCount) = 0 ∧ Displaced m₃.panel m₂.fb k := by
  have hm₁ := sound_run (sound_start h hstart).1 hbefore
  have hm₂ := hm₁.step hstep
  obtain ⟨hpanel, hlost⟩ := silent_run hsilent hafter
  rw [hpanel, hlost]
  exact ⟨hm₂.ready.awake, hm₂.ready.on, _, hm₂.ready.cursor_lt, hm₂.behind,
    Machine.step_displaced hm₁ hstep hsends hwhole⟩

/-- A driver that fails for one transfer, the one after `n` others. -/
def failing (n : Nat) : Ioctl := fun log _ => if (spiCalls log).length = n then 0 else 1

/-- What is lost is the bytes of that transfer. -/
theorem lost_failing {n : Nat} {log : List Event} {calls : List SpiCall}
    (h : Answered (failing n) log calls) :
    lost (calls.flatMap SpiCall.events) =
      if n < (spiCalls log).length then 0
      else ((calls[n - (spiCalls log).length]?).map fun c => c.tr.tx_buf.length).getD 0 := by
  induction calls generalizing log with
  | nil => split <;> rfl
  | cons c calls ih =>
      obtain ⟨hret, hcalls⟩ := h
      have hrest := ih hcalls
      rw [spiCalls_append, spiCalls_one, List.length_append, List.length_singleton] at hrest
      rw [List.flatMap_cons, lost_append, lost_events, hret, hrest]
      unfold failing
      by_cases heq : (spiCalls log).length = n
      · subst heq
        simp
      · rw [if_neg heq, if_neg (by decide), Nat.zero_add]
        by_cases hlt : n < (spiCalls log).length
        · rw [if_pos (by omega), if_pos hlt]
        · rw [if_neg (by omega), if_neg hlt,
            show n - (spiCalls log).length = n - ((spiCalls log).length + 1) + 1 by omega,
            List.getElem?_cons_succ]

/-- All blocks of a frame but the last are of 1000 bytes. -/
theorem Machine.step_failing {m m' : Machine} {n : Nat} (hn : n < 153)
    (hs : m.step (failing n, .update_screen) = some m') : m'.lost = m.lost + 1000 := by
  obtain ⟨s, hcall, rfl⟩ := Option.map_eq_some_iff.mp hs
  obtain ⟨log, hlog, rfl⟩ := Option.map_eq_some_iff.mp hcall
  have hlen : (m.fb.toList.flatMap bytesOf).length = 2 * LCD_WIDTH * LCD_HEIGHT := by
    rw [length_flatMap_bytesOf, Vector.length_toList, Nat.mul_assoc]
  have hcount : (blocks DATA_SIZE DATA_SIZE_pos (m.fb.toList.flatMap bytesOf)).length = 154 := by
    rw [blocks_length DATA_SIZE_pos (by rw [hlen]; decide), hlen]
    rfl
  obtain ⟨calls, hrun, hsends, hret⟩ :=
    lcd_write_data_sends (failing n) (m.fb.toList.flatMap bytesOf) []
  rw [hlen] at hrun
  obtain rfl := Option.some.inj (hrun.symm.trans hlog)
  obtain ⟨block, hblock, hfull⟩ :=
    blocks_getElem? DATA_SIZE_pos (m.fb.toList.flatMap bytesOf) (k := n) (by omega)
  rw [← bufs_of_sends hsends, List.getElem?_map] at hblock
  obtain ⟨c, hc, rfl⟩ := Option.map_eq_some_iff.mp hblock
  have hsent : Lcd.lost (calls.flatMap SpiCall.events) = 1000 := by
    rw [lost_failing hret]
    change ((calls[n - 0]?).map fun c => c.tr.tx_buf.length).getD 0 = 1000
    rw [Nat.sub_zero, hc]
    exact hfull
  change m.lost + Lcd.lost (calls.flatMap SpiCall.events) = _
  rw [hsent]

/-- The hundredth of the equal blocks of the first frame is lost, and the second frame arrives,
    500 pixels too early. -/
theorem displaced_run_block :
    ∃ m₀ m₁ m₂, Machine.start (fun _ _ => 1) default = some m₀ ∧
      m₀.step (failing 99, .update_screen) = some m₁ ∧ m₁.lost = 1000 ∧
      m₁.step (fun _ _ => 1, .update_screen) = some m₂ ∧ m₂.panel.on = true ∧
      Displaced m₂.panel m₂.fb (cellCount - 500) := by
  have hgood : Reliable fun _ _ => 1 := fun _ _ => Int.le_refl 1
  obtain ⟨m₀, hstart⟩ := Machine.start_reliable hgood default
  obtain ⟨m₁, hfirst⟩ := m₀.step_update (failing 99)
  obtain ⟨m₂, hsecond⟩ := m₁.step_update fun _ _ => 1
  have hbefore : run Machine.step m₀ [(failing 99, .update_screen)] = some m₁ := by
    rw [run_cons, hfirst]
    rfl
  obtain ⟨hm₀, hnone⟩ := sound_start hgood hstart
  have hlost : m₁.lost = 1000 := by
    rw [Machine.step_failing (by decide) hfirst, hnone]
  have hwhole := Machine.step_reliable (hm₀.step hfirst) hsecond hgood
  obtain ⟨-, hon, k, hk, hbehind, hdisplaced⟩ := displaced_run hgood hstart hbefore rfl hsecond
    hwhole (fun _ hj => absurd hj List.not_mem_nil) rfl
  have hnum : cellCount = 76800 := rfl
  rw [hwhole, hlost, hnum] at hbehind
  obtain rfl : k = cellCount - 500 := by omega
  exact ⟨m₀, m₁, m₂, hstart, hfirst, hlost, hsecond, hon, hdisplaced⟩

theorem reliable_run {m m' : Machine} {inputs : List (Ioctl × Call)} (hm : Sound m)
    (hreliable : ∀ i ∈ inputs, Reliable i.1) (hrun : run Machine.step m inputs = some m') :
    m'.lost = m.lost := by
  induction inputs generalizing m with
  | nil => cases hrun; rfl
  | cons i inputs ih =>
      obtain ⟨m₁, hstep, hrest⟩ := Option.bind_eq_some_iff.mp hrun
      obtain ⟨hi, hinputs⟩ := List.forall_mem_cons.mp hreliable
      exact (ih (hm.step hstep) hinputs hrest).trans (Machine.step_reliable hm hstep hi)

/-- As long as no transfer fails, the panel shows the picture that was sent last. -/
theorem shown_run (h : Reliable ioctl) {p : Panel} {m₀ m₁ m₂ m₃ : Machine}
    {before after : List (Ioctl × Call)} {i : Ioctl × Call}
    (hstart : Machine.start ioctl p = some m₀) (hreliable : ∀ j ∈ before ++ [i], Reliable j.1)
    (hbefore : run Machine.step m₀ before = some m₁) (hsends : i.2.sends = true)
    (hstep : m₁.step i = some m₂) (hsilent : ∀ j ∈ after, j.2.sends = false)
    (hafter : run Machine.step m₂ after = some m₃) :
    m₃.panel.awake = true ∧ m₃.panel.on = true ∧ Shows m₃.panel m₂.fb := by
  obtain ⟨hm₀, hnone⟩ := sound_start h hstart
  have hm₁ := sound_run hm₀ hbefore
  have hm₂ := hm₁.step hstep
  have hi : Reliable i.1 := hreliable i (List.mem_append_right _ List.mem_cons_self)
  have hlost : m₂.lost = 0 := by
    rw [Machine.step_reliable hm₁ hstep hi,
      reliable_run hm₀ (fun j hj => hreliable j (List.mem_append_left _ hj)) hbefore, hnone]
  have hcursor : (m₂.panel.cyclic LCD_WIDTH).cursor = 0 := by
    have hlt := hm₂.ready.cursor_lt
    have hbehind := hm₂.behind
    rw [hlost] at hbehind
    have hnum : cellCount = 76800 := rfl
    change _ < cellCount at hlt
    rw [hnum] at hlt hbehind
    omega
  have hdisplaced := Machine.step_displaced hm₁ hstep hsends (Machine.step_reliable hm₁ hstep hi)
  rw [hcursor] at hdisplaced
  rw [(silent_run hsilent hafter).1]
  exact ⟨hm₂.ready.awake, hm₂.ready.on, hdisplaced.shows⟩

theorem Machine.step_pixel (m : Machine) (ioctl : Ioctl) (x y color : UInt16) :
    ∃ m', m.step (ioctl, .draw_pixel x y color) = some m' ∧
      Painted m.fb m'.fb x y 1 1 color := by
  obtain ⟨fb, hdraw, hpainted⟩ := lcd_draw_pixel_painted m.fb x y color
  unfold Machine.step Screen.call
  dsimp only
  rw [hdraw]
  exact ⟨_, rfl, hpainted⟩

/-- A pixel, the frame with it, and another pixel that is drawn after the frame. -/
theorem shown_run_frame :
    ∃ m₀ m₁ m₂ m₃, Machine.start (fun _ _ => 1) default = some m₀ ∧
      m₀.step (fun _ _ => 1, .draw_pixel 3 2 0xF800) = some m₁ ∧
      m₁.step (fun _ _ => 1, .update_screen) = some m₂ ∧
      m₂.step (fun _ _ => 1, .draw_pixel 0 0 0xFFFF) = some m₃ ∧
      Shows m₃.panel m₂.fb ∧ m₃.panel.gram 3 2 = 0xF800 := by
  have hgood : Reliable fun _ _ => 1 := fun _ _ => Int.le_refl 1
  obtain ⟨m₀, hstart⟩ := Machine.start_reliable hgood default
  obtain ⟨m₁, hfirst, hpainted⟩ := m₀.step_pixel (fun _ _ => 1) 3 2 0xF800
  obtain ⟨m₂, hframe⟩ := m₁.step_update fun _ _ => 1
  obtain ⟨m₃, hpixel, -⟩ := m₂.step_pixel (fun _ _ => 1) 0 0 0xFFFF
  have hfb : m₂.fb = m₁.fb := by
    obtain ⟨s, hcall, rfl⟩ := Option.map_eq_some_iff.mp hframe
    obtain ⟨log, -, rfl⟩ := Option.map_eq_some_iff.mp hcall
    rfl
  have hbefore : run Machine.step m₀ [(fun _ _ => 1, .draw_pixel 3 2 0xF800)] = some m₁ := by
    rw [run_cons, hfirst]
    rfl
  have hafter : run Machine.step m₂ [(fun _ _ => 1, .draw_pixel 0 0 0xFFFF)] = some m₃ := by
    rw [run_cons, hpixel]
    rfl
  have hreliable : ∀ j ∈ [((fun _ _ => 1 : Ioctl), Call.draw_pixel 3 2 0xF800)] ++
      [((fun _ _ => 1 : Ioctl), Call.update_screen)], Reliable j.1 := by
    intro j hj
    simp only [List.singleton_append, List.mem_cons, List.not_mem_nil, or_false] at hj
    rcases hj with rfl | rfl <;> exact hgood
  have hshows := (shown_run hgood hstart hreliable hbefore rfl hframe
    (fun j hj => by rw [List.mem_singleton.mp hj]; rfl) hafter).2.2
  refine ⟨m₀, m₁, m₂, m₃, hstart, hfirst, hframe, hpixel, hshows, ?_⟩
  rw [hshows 3 (by decide) 2 (by decide) (swapped 0xF800)]
  · decide
  · rw [hfb]
    exact (hpainted 3 (by decide) 2 (by decide)).1 (by unfold InRect; decide)

end KernelBasecamp.Lcd
