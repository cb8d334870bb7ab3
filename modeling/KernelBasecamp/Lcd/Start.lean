/-
  The start of demo_lcd.c: in whatever state the panel is, after the reset, the initial commands
  and the window it is on, takes pixels of 16 bits and waits for those of the whole screen.

  A command and its data are followed as one step (`Panel.send`), of which `Mode` keeps what
  matters: whether the panel is awake and on, and the format.
-/
import KernelBasecamp.Lcd.Wire

namespace KernelBasecamp.Lcd

open Lib Panel

/-- The driver reports no failure. -/
def Reliable (ioctl : Ioctl) : Prop := ∀ log tr, 1 ≤ ioctl log tr

variable {ioctl : Ioctl}

theorem Reliable.ret (h : Reliable ioctl) {log : List Event} {calls : List SpiCall}
    (hret : Answered ioctl log calls) : ∀ c ∈ calls, 1 ≤ c.ret := by
  induction calls generalizing log with
  | nil => exact fun c hc => absurd hc List.not_mem_nil
  | cons c calls ih =>
      obtain ⟨hc, hcalls⟩ := hret
      exact List.forall_mem_cons.mpr ⟨hc ▸ h log c.tr, ih hcalls⟩

theorem Reliable.delivered (h : Reliable ioctl) {log log' : List Event} {set : Panel → Panel}
    {calls : List SpiCall} {bs : List (List UInt8)} (hsent : Sent ioctl log log' set calls bs) :
    delivered calls = bs.flatten := by
  obtain ⟨before, hret⟩ := hsent.answered
  unfold Lcd.delivered
  rw [List.filter_eq_self.mpr fun c hc => decide_eq_true (h.ret hret c hc), List.flatMap_def,
    bufs_of_sends hsent.sends]

namespace Panel

/-- A command and its data. -/
def send (p : Panel) (c : UInt8 × List UInt8) : Panel :=
  let p := ({ p with data := false } : Panel).byte c.1
  if c.2 = [] then p else c.2.foldl byte { p with data := true }

/-- The panel takes bytes. -/
structure Listening (p : Panel) : Prop where
  selected : p.selected = true
  reset : p.reset = false

structure Mode where
  awake : Bool
  on : Bool
  format : UInt8
  deriving DecidableEq, Repr

def mode (p : Panel) : Mode := ⟨p.awake, p.on, p.format⟩

/-- What a command with its data makes of the mode. -/
def Mode.next (m : Mode) (c : UInt8 × List UInt8) : Mode :=
  let m : Mode :=
    if c.1 = 0x01 then ⟨false, false, 0x66⟩
    else if c.1 = 0x11 then { m with awake := true }
    else if c.1 = 0x29 then { m with on := true }
    else m
  if c.1 = 0x3A then { m with format := c.2.headD m.format } else m

variable {p : Panel}

theorem Listening.byte_command (hp : Listening p) (c : UInt8) :
    ({ p with data := false } : Panel).byte c =
      ({ p with data := false } : Panel).takeCommand c := by
  have hon : p.selected = true ∧ ¬ p.reset = true := ⟨hp.selected, by rw [hp.reset]; decide⟩
  unfold byte
  rw [if_pos hon, if_neg Bool.false_ne_true]

theorem Listening.byte_data (hp : Listening p) (hdata : p.data = true) (b : UInt8) :
    p.byte b = p.takeData b := by
  have hon : p.selected = true ∧ ¬ p.reset = true := ⟨hp.selected, by rw [hp.reset]; decide⟩
  unfold byte
  rw [if_pos hon, if_pos hdata]

/-- A parameter of a command other than LCD_RAMWR. -/
structure Param (p q : Panel) (b : UInt8) : Prop where
  listening : Listening q
  data : q.data = p.data
  command : q.command = p.command
  args : q.args = p.args ++ [b]
  mode : q.mode =
    if p.command = 0x3A ∧ p.args = [] then { p.mode with format := b } else p.mode

theorem Listening.param (hp : Listening p) (hdata : p.data = true) (hcmd : p.command ≠ LCD_RAMWR)
    (b : UInt8) : Param p (p.byte b) b := by
  rw [hp.byte_data hdata]
  unfold takeData
  rw [if_neg hcmd]
  dsimp only
  by_cases hcaset : p.command = LCD_CASET
  · have hformat : p.command ≠ 0x3A := by rw [hcaset]; decide
    rw [if_pos hcaset]
    exact ⟨⟨hp.selected, hp.reset⟩, rfl, rfl, rfl, (if_neg fun h => hformat h.1).symm⟩
  rw [if_neg hcaset]
  by_cases hraset : p.command = LCD_RASET
  · have hformat : p.command ≠ 0x3A := by rw [hraset]; decide
    rw [if_pos hraset]
    exact ⟨⟨hp.selected, hp.reset⟩, rfl, rfl, rfl, (if_neg fun h => hformat h.1).symm⟩
  rw [if_neg hraset]
  by_cases hformat : p.command = 0x3A ∧ p.args = []
  · rw [if_pos (by rw [hformat.2]; exact ⟨hformat.1, rfl⟩)]
    exact ⟨⟨hp.selected, hp.reset⟩, rfl, rfl, rfl, (if_pos hformat).symm⟩
  · rw [if_neg (by simpa using hformat)]
    exact ⟨⟨hp.selected, hp.reset⟩, rfl, rfl, rfl, (if_neg hformat).symm⟩

/-- The parameters behind the first one change nothing of the mode. -/
theorem Listening.params (hp : Listening p) (hdata : p.data = true) (hcmd : p.command ≠ LCD_RAMWR)
    (hargs : p.args ≠ []) (bs : List UInt8) :
    Listening (bs.foldl byte p) ∧ (bs.foldl byte p).mode = p.mode := by
  induction bs generalizing p with
  | nil => exact ⟨hp, rfl⟩
  | cons b bs ih =>
      have hnext := hp.param hdata hcmd b
      have hmode : (p.byte b).mode = p.mode := by
        rw [hnext.mode, if_neg fun h => hargs h.2]
      rw [List.foldl_cons, ← hmode]
      exact ih hnext.listening (hnext.data.trans hdata) (by rw [hnext.command]; exact hcmd)
        (by rw [hnext.args]; exact List.append_ne_nil_of_right_ne_nil _ (List.cons_ne_nil b []))

theorem Listening.takeCommand (hp : Listening p) {c : UInt8} (hc : c ≠ LCD_RAMWR) :
    Listening (p.takeCommand c) ∧ (p.takeCommand c).mode = p.mode.next (c, []) ∧
      (p.takeCommand c).command = (if c = 0x01 then 0 else c) ∧ (p.takeCommand c).args = [] := by
  unfold Panel.takeCommand Mode.next
  by_cases hreset : c = 0x01
  · subst hreset
    exact ⟨⟨hp.selected, hp.reset⟩, rfl, rfl, rfl⟩
  rw [if_neg hreset, if_neg hreset, if_neg hreset]
  by_cases hwake : c = 0x11
  · subst hwake
    exact ⟨⟨hp.selected, hp.reset⟩, rfl, rfl, rfl⟩
  rw [if_neg hwake, if_neg hwake]
  by_cases hon : c = 0x29
  · subst hon
    exact ⟨⟨hp.selected, hp.reset⟩, rfl, rfl, rfl⟩
  rw [if_neg hon, if_neg hon, if_neg hc]
  refine ⟨⟨hp.selected, hp.reset⟩, ?_, rfl, rfl⟩
  split <;> rfl

theorem Listening.send (hp : Listening p) {c : UInt8 × List UInt8} (hc : c.1 ≠ LCD_RAMWR) :
    Listening (p.send c) ∧ (p.send c).mode = p.mode.next c := by
  obtain ⟨c, bs⟩ := c
  have hp' : Listening ({ p with data := false } : Panel) := ⟨hp.selected, hp.reset⟩
  obtain ⟨hlistening, hmode, hcommand, hargs⟩ := hp'.takeCommand hc
  unfold Panel.send
  dsimp only
  rw [hp.byte_command]
  cases bs with
  | nil => exact ⟨hlistening, hmode⟩
  | cons b bs =>
      rw [if_neg (List.cons_ne_nil b bs), List.foldl_cons]
      generalize hq : ({ p with data := false } : Panel).takeCommand c = q at *
      have hq' : Listening ({ q with data := true } : Panel) :=
        ⟨hlistening.selected, hlistening.reset⟩
      have hcmd : q.command ≠ LCD_RAMWR := by
        rw [hcommand]
        split
        · decide
        · exact hc
      have hfirst := hq'.param rfl hcmd b
      obtain ⟨hrest, hsame⟩ := hfirst.listening.params hfirst.data
        (by rw [hfirst.command]; exact hcmd)
        (by rw [hfirst.args]; exact List.append_ne_nil_of_right_ne_nil _ (List.cons_ne_nil b [])) bs
      refine ⟨hrest, ?_⟩
      rw [hsame, hfirst.mode]
      change (if q.command = 0x3A ∧ q.args = [] then { q.mode with format := b } else q.mode) = _
      rw [hmode]
      by_cases hformat : c = 0x3A
      · subst hformat
        rw [if_pos ⟨hcommand, hargs⟩]
        rfl
      · have hother : ¬ (q.command = 0x3A ∧ q.args = []) := by
          rw [hcommand]
          rintro ⟨h, -⟩
          split at h
          · exact absurd h (by decide)
          · exact hformat h
        rw [if_neg hother]
        unfold Mode.next
        dsimp only
        rw [if_neg hformat, if_neg hformat]
        rfl

/-! ## The window -/

theorem address_word (c : UInt16) :
    256 * ((c >>> 8) &&& 0xFF).toUInt8.toNat + (c &&& 0xFF).toUInt8.toNat = c.toNat := by
  have hc := c.toNat_lt
  have hmask : (0xFF : UInt16).toNat = 2 ^ 8 - 1 := rfl
  have height : (8 : UInt16).toNat % 16 = 8 := rfl
  simp only [UInt16.toNat_toUInt8, UInt16.toNat_and, UInt16.toNat_shiftRight, hmask, height,
    Nat.and_two_pow_sub_one_eq_mod, Nat.shiftRight_eq_div_pow]
  omega

theorem range_addressBytes (a b : UInt16) :
    range (addressBytes a b) = some (a.toNat, b.toNat) := by
  have hrange : range (addressBytes a b) =
      some (256 * ((a >>> 8) &&& 0xFF).toUInt8.toNat + (a &&& 0xFF).toUInt8.toNat,
        256 * ((b >>> 8) &&& 0xFF).toUInt8.toNat + (b &&& 0xFF).toUInt8.toNat) := rfl
  rw [hrange, address_word, address_word]

/-- A range takes effect with its fourth parameter. -/
theorem Listening.range (hp : Listening p) (hdata : p.data = true) (hargs : p.args = [])
    (hcmd : p.command = LCD_CASET ∨ p.command = LCD_RASET) {b₀ b₁ b₂ b₃ : UInt8} {r : Nat × Nat}
    (hr : Panel.range [b₀, b₁, b₂, b₃] = some r) :
    [b₀, b₁, b₂, b₃].foldl byte p = { p with
      args := [b₀, b₁, b₂, b₃]
      columns := if p.command = LCD_CASET then r else p.columns
      pages := if p.command = LCD_CASET then p.pages else r } := by
  have hwrite : ¬ LCD_CASET = LCD_RAMWR ∧ ¬ LCD_RASET = LCD_RAMWR ∧ ¬ LCD_RASET = LCD_CASET := by
    decide
  have hshort : Panel.range [b₀] = none ∧ Panel.range [b₀, b₁] = none ∧
      Panel.range [b₀, b₁, b₂] = none := ⟨rfl, rfl, rfl⟩
  rcases hcmd with hcmd | hcmd
  · simp [byte, takeData, hp.selected, hp.reset, hdata, hcmd, hwrite, hargs, hr, hshort]
  · simp [byte, takeData, hp.selected, hp.reset, hdata, hcmd, hwrite, hargs, hr, hshort]

theorem Listening.send_range (hp : Listening p) {c : UInt8} (hc : c = LCD_CASET ∨ c = LCD_RASET)
    (a b : UInt16) : p.send (c, addressBytes a b) = { p with
      data := true
      command := c
      args := addressBytes a b
      columns := if c = LCD_CASET then (a.toNat, b.toNat) else p.columns
      pages := if c = LCD_CASET then p.pages else (a.toNat, b.toNat)
      half := none } := by
  have hq : Listening { p with data := true, command := c, args := [], half := none } :=
    ⟨hp.selected, hp.reset⟩
  have hother : c ≠ 0x01 ∧ c ≠ 0x11 ∧ c ≠ 0x29 ∧ c ≠ LCD_RAMWR := by
    rcases hc with rfl | rfl <;> decide
  unfold Panel.send
  dsimp only
  rw [hp.byte_command]
  unfold Panel.takeCommand
  rw [if_neg hother.1, if_neg hother.2.1, if_neg hother.2.2.1, if_neg hother.2.2.2]
  exact hq.range rfl rfl hc (range_addressBytes a b)

theorem Listening.send_ramwr (hp : Listening p) : p.send (LCD_RAMWR, []) = { p with
      data := false
      command := LCD_RAMWR
      args := []
      x := p.columns.1
      y := p.pages.1
      half := none } := by
  unfold Panel.send
  dsimp only
  rw [if_pos rfl, hp.byte_command]
  rfl

/-- The bytes of `lcd_set_address_window`, as commands and data. -/
def windowSequence (x0 y0 x1 y1 : UInt16) : List (UInt8 × List UInt8) :=
  [(LCD_CASET, addressBytes x0 x1), (LCD_RASET, addressBytes y0 y1), (LCD_RAMWR, [])]

/-- The window is set and the cursor is at its start. -/
theorem Listening.window (hp : Listening p) (x0 y0 x1 y1 : UInt16) :
    (windowSequence x0 y0 x1 y1).foldl Panel.send p = { p with
      data := false
      command := LCD_RAMWR
      args := []
      columns := (x0.toNat, x1.toNat)
      pages := (y0.toNat, y1.toNat)
      x := x0.toNat
      y := y0.toNat
      half := none } := by
  have hcaset : Listening (p.send (LCD_CASET, addressBytes x0 x1)) :=
    (hp.send (by decide : LCD_CASET ≠ LCD_RAMWR)).1
  have hraset : Listening ((p.send (LCD_CASET, addressBytes x0 x1)).send
      (LCD_RASET, addressBytes y0 y1)) :=
    (hcaset.send (by decide : LCD_RASET ≠ LCD_RAMWR)).1
  unfold windowSequence
  rw [List.foldl_cons, List.foldl_cons, List.foldl_cons, List.foldl_nil, hraset.send_ramwr,
    hcaset.send_range (.inr rfl), hp.send_range (.inl rfl)]
  rfl

end Panel

/-! ## The program -/

theorem lcd_write_command_react (h : Reliable ioctl) (cmd : UInt8) (log : List Event) :
    ∃ log', lcd_write_command ioctl cmd log = some log' ∧ ∀ p : Panel,
      p.react log' = ({ p.react log with data := false } : Panel).byte cmd := by
  obtain ⟨log', calls, hwrite, hsent⟩ := lcd_write_command_sent ioctl cmd log
  refine ⟨log', hwrite, fun p => ?_⟩
  rw [hsent.react, h.delivered hsent]
  rfl

theorem lcd_write_data_react (h : Reliable ioctl) (buff : List UInt8) (log : List Event) :
    ∃ log', lcd_write_data ioctl buff buff.length log = some log' ∧ ∀ p : Panel,
      p.react log' = buff.foldl byte { p.react log with data := true } := by
  obtain ⟨log', calls, hwrite, hsent⟩ := lcd_write_data_sent ioctl buff log
  refine ⟨log', hwrite, fun p => ?_⟩
  rw [hsent.react, h.delivered hsent, blocks_flatten]

theorem sendCommand_react (h : Reliable ioctl) (log : List Event) (c : UInt8 × List UInt8) :
    ∃ log', sendCommand ioctl log c = some log' ∧ ∀ p : Panel,
      p.react log' = (p.react log).send c := by
  obtain ⟨log₁, hcommand, hreact⟩ := lcd_write_command_react h c.1 log
  unfold sendCommand Panel.send
  rw [hcommand, Option.bind_eq_bind, Option.bind_some]
  by_cases hnil : c.2 = []
  · rw [if_pos hnil]
    refine ⟨log₁, rfl, fun p => ?_⟩
    rw [if_pos hnil, hreact]
  · rw [if_neg hnil]
    obtain ⟨log', hdata, hreact'⟩ := lcd_write_data_react h c.2 log₁
    refine ⟨log', hdata, fun p => ?_⟩
    rw [if_neg hnil, hreact', hreact]

theorem sendCommands_react (h : Reliable ioctl) (cs : List (UInt8 × List UInt8))
    (log : List Event) : ∃ log', cs.foldlM (sendCommand ioctl) log = some log' ∧ ∀ p : Panel,
      p.react log' = cs.foldl Panel.send (p.react log) := by
  induction cs generalizing log with
  | nil => exact ⟨log, rfl, fun _ => rfl⟩
  | cons c cs ih =>
      obtain ⟨log₁, hfirst, hreact⟩ := sendCommand_react h log c
      obtain ⟨log', hrest, hreact'⟩ := ih log₁
      refine ⟨log', by rw [List.foldlM_cons, hfirst]; exact hrest, fun p => ?_⟩
      rw [hreact', hreact, List.foldl_cons]

/-- `lcd_set_address_window` is three commands with their data. -/
theorem lcd_set_address_window_eq (x0 y0 x1 y1 : UInt16) (log : List Event) :
    lcd_set_address_window ioctl x0 y0 x1 y1 log =
      (windowSequence x0 y0 x1 y1).foldlM (sendCommand ioctl) log := by
  have hne : ∀ a b, addressBytes a b ≠ [] := fun _ _ => List.cons_ne_nil _ _
  have hlen : ∀ a b, (addressBytes a b).length = 4 := fun _ _ => rfl
  unfold lcd_set_address_window windowSequence sendCommand
  simp [List.foldlM_cons, hne, hlen, Option.bind_assoc]

/-- After `lcd_reset` the panel takes bytes, whatever it did before. -/
theorem lcd_reset_listening (p : Panel) : Listening (p.react (lcd_reset [])) := ⟨rfl, rfl⟩

/-- The initial commands leave the panel awake and on, with pixels of 16 bits. -/
theorem initSequence_mode (m : Mode) : initSequence.foldl Mode.next m = ⟨true, true, 0x55⟩ := rfl

theorem Panel.Listening.sends {p : Panel} (hp : Listening p) {cs : List (UInt8 × List UInt8)}
    (hcs : ∀ c ∈ cs, c.1 ≠ LCD_RAMWR) :
    Listening (cs.foldl Panel.send p) ∧
      (cs.foldl Panel.send p).mode = cs.foldl Mode.next p.mode := by
  induction cs generalizing p with
  | nil => exact ⟨hp, rfl⟩
  | cons c cs ih =>
      obtain ⟨hlistening, hmode⟩ := hp.send (hcs c List.mem_cons_self)
      have hrest := ih hlistening fun c' hc' => hcs c' (List.mem_cons_of_mem c hc')
      rw [hmode] at hrest
      exact hrest

/-- The start brings any panel to the same point. -/
theorem start_ready (h : Reliable ioctl) : ∃ log, start ioctl [] = some log ∧ ∀ p : Panel,
    Ready LCD_WIDTH LCD_HEIGHT (p.react log) ∧
      ((p.react log).cyclic LCD_WIDTH).cursor = 0 := by
  obtain ⟨log₁, hinit, hreact₁⟩ := sendCommands_react h initSequence (lcd_reset [])
  obtain ⟨log, hwindow, hreact⟩ := sendCommands_react h
    (windowSequence 0 0 (UInt16.ofNat (LCD_WIDTH - 1)) (UInt16.ofNat (LCD_HEIGHT - 1)))
    (log₁ ++ [.printf "LCD init ok\n"])
  refine ⟨log, ?_, fun p => ?_⟩
  · unfold start lcd_init_ili9341
    rw [hinit, Option.bind_eq_bind, Option.bind_some, lcd_set_address_window_eq]
    exact hwindow
  · have hcommands : ∀ c ∈ initSequence, c.1 ≠ LCD_RAMWR := by decide
    obtain ⟨hlistening, hmode⟩ := (lcd_reset_listening p).sends hcommands
    rw [initSequence_mode, ← hreact₁] at hmode
    rw [← hreact₁] at hlistening
    have hprintf : p.react (log₁ ++ [.printf "LCD init ok\n"]) = p.react log₁ := by
      rw [react_append]
      rfl
    rw [hreact, hprintf, hlistening.window]
    refine ⟨⟨congrArg Mode.awake hmode, congrArg Mode.on hmode, hlistening.selected,
      hlistening.reset, rfl, rfl, rfl, rfl, congrArg Mode.format hmode,
      (by decide : 0 < LCD_WIDTH), (by decide : 0 < LCD_HEIGHT)⟩, rfl⟩

end KernelBasecamp.Lcd
