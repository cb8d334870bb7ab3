/-
  What the calls of demo_lcd.c that send bytes do to the panel.

  The bytes of a call go out in blocks, one transfer each, and a transfer that fails brings
  nothing: `Sent` says what the panel has made of a log, and counts what is lost.
-/
import KernelBasecamp.Lcd.Demo

namespace KernelBasecamp.Lcd

open Lib Panel

/-! ## Transfers -/

/-- The bytes of the transfers that succeed. -/
def delivered (calls : List SpiCall) : List UInt8 :=
  (calls.filter fun c => 1 ≤ c.ret).flatMap (·.tr.tx_buf)

/-- The bytes of the transfers that fail. -/
def lost (log : List Event) : Nat :=
  (((spiCalls log).filter fun c => c.ret < 1).map fun c => c.tr.tx_buf.length).sum

theorem lost_append (log log' : List Event) : lost (log ++ log') = lost log + lost log' := by
  unfold lost
  rw [spiCalls_append, List.filter_append, List.map_append, List.sum_append]

theorem delivered_one (c : SpiCall) :
    delivered [c] = if c.ret < 1 then [] else c.tr.tx_buf := by
  unfold delivered
  split
  · next hfail => simp [hfail]
  · next hfail => simp [show 1 ≤ c.ret by omega]

theorem lost_events (c : SpiCall) :
    lost c.events = if c.ret < 1 then c.tr.tx_buf.length else 0 := by
  unfold lost
  rw [spiCalls_one]
  split
  · next hfail => simp [hfail]
  · next hfail => simp [show 1 ≤ c.ret by omega]

/-- One transfer, seen from the panel. -/
theorem react_events (p : Panel) (c : SpiCall) :
    p.react c.events = (delivered [c]).foldl byte p := by
  rw [delivered_one]
  unfold SpiCall.events Panel.react
  by_cases hfail : c.ret < 1
  · simp [Panel.event, hfail]
  · simp [Panel.event, hfail]

theorem delivered_cons (c : SpiCall) (calls : List SpiCall) :
    delivered (c :: calls) = delivered [c] ++ delivered calls := by
  unfold delivered
  rw [← List.flatMap_append, ← List.filter_append, List.singleton_append]

/-- A run of transfers: what succeeds arrives, and the rest is lost. -/
theorem react_calls (p : Panel) (calls : List SpiCall) :
    p.react (calls.flatMap SpiCall.events) = (delivered calls).foldl byte p := by
  induction calls generalizing p with
  | nil => rfl
  | cons c calls ih =>
      rw [List.flatMap_cons, react_append, react_events, ih, delivered_cons c calls,
        List.foldl_append]

theorem lost_calls (calls : List SpiCall) :
    lost (calls.flatMap SpiCall.events) + (delivered calls).length =
      (calls.map (·.tr.tx_buf)).flatten.length := by
  induction calls with
  | nil => rfl
  | cons c calls ih =>
      rw [List.flatMap_cons, lost_append, delivered_cons c calls, List.map_cons, List.flatten_cons,
        List.length_append, List.length_append, lost_events, delivered_one]
      split
      · rw [List.length_nil]
        omega
      · omega

/-! ## Calls -/

/-- What a log leads to, seen from the panel: the transfers that send these blocks, in this
    order. -/
structure Sent (ioctl : Ioctl) (log log' : List Event) (set : Panel → Panel)
    (calls : List SpiCall) (bs : List (List UInt8)) : Prop where
  sends : List.Forall₂ Sends calls bs
  answered : ∃ before, Answered ioctl before calls
  react : ∀ p : Panel, p.react log' = (delivered calls).foldl byte (set (p.react log))
  lost : lost log' + (delivered calls).length = lost log + bs.flatten.length

variable {ioctl : Ioctl}

/-- A level of a pin, and the transfers after it. -/
theorem sent_of_sends {log : List Event} {pin value : Nat} {calls : List SpiCall}
    {bs : List (List UInt8)} (h : List.Forall₂ Sends calls bs)
    (hret : ∃ before, Answered ioctl before calls) :
    Sent ioctl log (log ++ .gpio pin value :: calls.flatMap SpiCall.events)
      (fun p => p.event (.gpio pin value)) calls bs := by
  refine ⟨h, hret, fun p => ?_, ?_⟩
  · rw [react_append]
    exact react_calls ((p.react log).event (.gpio pin value)) calls
  · have hcalls := lost_calls calls
    rw [bufs_of_sends h] at hcalls
    have hgpio : Lcd.lost (.gpio pin value :: calls.flatMap SpiCall.events) =
        Lcd.lost (calls.flatMap SpiCall.events) := rfl
    rw [lost_append, hgpio]
    omega

/-- `lcd_write_data` sends the blocks of its buffer as data. -/
theorem lcd_write_data_sent (ioctl : Ioctl) (buff : List UInt8) (log : List Event) :
    ∃ log' calls, lcd_write_data ioctl buff buff.length log = some log' ∧
      Sent ioctl log log' (fun p => { p with data := true }) calls
        (blocks DATA_SIZE DATA_SIZE_pos buff) := by
  obtain ⟨calls, hrun, hcalls, hret⟩ := lcd_write_data_sends ioctl buff log
  exact ⟨_, calls, hrun, sent_of_sends hcalls ⟨_, hret⟩⟩

theorem lcd_write_command_sent (ioctl : Ioctl) (cmd : UInt8) (log : List Event) :
    ∃ log' calls, lcd_write_command ioctl cmd log = some log' ∧
      Sent ioctl log log' (fun p => { p with data := false }) calls [[cmd]] := by
  obtain ⟨c, hwrite, hc, hret⟩ := spi_write_sends ioctl (log ++ [.gpio LCD_PIN_DC 0])
    (show 1 < 2 ^ 16 by decide) (show 0 + 1 ≤ [cmd].length from Nat.le_refl 1)
  refine ⟨_, [c], hwrite, ?_⟩
  rw [List.append_assoc, List.singleton_append, ← List.flatMap_singleton SpiCall.events c]
  exact sent_of_sends (.cons hc .nil) ⟨_, hret, trivial⟩

end KernelBasecamp.Lcd
