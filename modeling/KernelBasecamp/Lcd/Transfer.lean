/-
  Sending a buffer to the display (task04, demo_lcd.c).

  The log is what the program asks of the kernel, in the order it asks: levels of the GPIO pins,
  SPI transfers with the driver's answers, and messages on standard output. The driver answers
  each transfer anew: `ioctl` is given all that has been asked before. A pointer is an offset into
  the memory it points into, and a transfer of bytes outside of that memory is a fault (`none`).
  `unsigned long` is a natural number: `i` and `buff_size` add up to the size that was given, so
  neither wraps. The `len` of `spi_write` is a `uint16_t`, and is converted there.

  The transfers of `lcd_write_data` are the blocks of the buffer (`write_loop_sends`), which is
  where their number, their lengths and their contents come from.
-/
import KernelBasecamp.Lib.Blocks
import KernelBasecamp.Lcd.FrameBuffer

namespace KernelBasecamp.Lcd

open Lib

def LCD_PIN_DC : Nat := 22

def DATA_SIZE : Nat := 1000

/-- The bytes of a `uint16_t` in memory. -/
def bytesOf (v : UInt16) : List UInt8 := [v.toUInt8, (v >>> 8).toUInt8]

/-- `struct spi_ioc_transfer`, with the bytes that the driver finds at `tx_buf`. -/
structure SpiTransfer where
  tx_buf : List UInt8
  len : UInt16
  delay_usecs : UInt16
  speed_hz : UInt32
  bits_per_word : UInt8
deriving DecidableEq, Repr

/-- A call `spi_write(buff + i, size)`, with the size as the caller gives it, its transfer and
    what `ioctl` has returned. -/
structure SpiCall where
  i : Nat
  size : Nat
  tr : SpiTransfer
  ret : Int
deriving DecidableEq, Repr

inductive Event
  | gpio (pin value : Nat)
  | spi (call : SpiCall)
  | printf (text : String)
deriving DecidableEq, Repr

/-- What the driver returns for a transfer, after all that is in the log. -/
abbrev Ioctl := List Event → SpiTransfer → Int

def spi_write (ioctl : Ioctl) (buff : List UInt8) (i size : Nat) (log : List Event) :
    Option (List Event) :=
  let len := UInt16.ofNat size
  if i + len.toNat ≤ buff.length then
    let tr : SpiTransfer :=
      { tx_buf := (buff.drop i).take len.toNat
        len := len
        delay_usecs := 0
        speed_hz := 5000000
        bits_per_word := 8 }
    let ret := ioctl log tr
    if ret < 1 then some (log ++ [.spi ⟨i, size, tr, ret⟩, .printf "can't send spi message\n"])
    else some (log ++ [.spi ⟨i, size, tr, ret⟩])
  else none

/-- The loop of `lcd_write_data` and the transfer after it. -/
def write_loop (ioctl : Ioctl) (buff : List UInt8) (i buff_size : Nat)
    (log : List Event) : Option (List Event) :=
  if DATA_SIZE < buff_size then do
    let log ← spi_write ioctl buff i DATA_SIZE log
    write_loop ioctl buff (i + DATA_SIZE) (buff_size - DATA_SIZE) log
  else spi_write ioctl buff i buff_size log
termination_by buff_size
decreasing_by simp only [DATA_SIZE] at *; omega

def lcd_write_data (ioctl : Ioctl) (buff : List UInt8) (buff_size : Nat)
    (log : List Event) : Option (List Event) :=
  write_loop ioctl buff 0 buff_size (log ++ [.gpio LCD_PIN_DC 1])

def lcd_update_screen (ioctl : Ioctl) (fb : FrameBuffer) (log : List Event) :
    Option (List Event) :=
  lcd_write_data ioctl (fb.toList.flatMap bytesOf) (2 * LCD_WIDTH * LCD_HEIGHT) log

/-! ## One transfer -/

/-- The calls of `spi_write`, in their order. -/
def spiCalls (log : List Event) : List SpiCall :=
  log.filterMap fun
    | .spi call => some call
    | _ => none

theorem spiCalls_append (log log' : List Event) :
    spiCalls (log ++ log') = spiCalls log ++ spiCalls log' :=
  List.filterMap_append

/-- What a call leaves in the log. -/
def SpiCall.events (c : SpiCall) : List Event :=
  .spi c :: if c.ret < 1 then [.printf "can't send spi message\n"] else []

theorem spiCalls_one (c : SpiCall) : spiCalls c.events = [c] := by
  unfold SpiCall.events
  split <;> rfl

theorem spiCalls_events (calls : List SpiCall) :
    spiCalls (calls.flatMap SpiCall.events) = calls := by
  induction calls with
  | nil => rfl
  | cons c calls ih =>
      rw [List.flatMap_cons, spiCalls_append, spiCalls_one, ih, List.singleton_append]

theorem DATA_SIZE_pos : 0 < DATA_SIZE := by decide

/-- A call that sends these bytes, with its size converted to itself. -/
structure Sends (c : SpiCall) (b : List UInt8) : Prop where
  buf : c.tr.tx_buf = b
  size : c.size = b.length
  len : c.tr.len.toNat = c.size

/-- Calls that `ioctl` answers one after the other, from a log on. -/
def Answered (ioctl : Ioctl) : List Event → List SpiCall → Prop
  | _, [] => True
  | log, c :: calls => c.ret = ioctl log c.tr ∧ Answered ioctl (log ++ c.events) calls

/-- A transfer of a size that a `uint16_t` holds, from inside of the memory. -/
theorem spi_write_sends (ioctl : Ioctl) {buff : List UInt8} {i size : Nat} (log : List Event)
    (hsize : size < 2 ^ 16) (hi : i + size ≤ buff.length) :
    ∃ c, spi_write ioctl buff i size log = some (log ++ c.events) ∧
      Sends c ((buff.drop i).take size) ∧ c.ret = ioctl log c.tr := by
  have hlen : (UInt16.ofNat size).toNat = size := UInt16.toNat_ofNat_of_lt' hsize
  have hblock : ((buff.drop i).take size).length = size := by
    rw [List.length_take, List.length_drop]
    omega
  let tr : SpiTransfer := ⟨(buff.drop i).take size, UInt16.ofNat size, 0, 5000000, 8⟩
  refine ⟨⟨i, size, tr, ioctl log tr⟩, ?_, ⟨rfl, hblock.symm, hlen⟩, rfl⟩
  unfold spi_write SpiCall.events
  simp only [hlen]
  rw [if_pos hi]
  by_cases hfail : ioctl log tr < 1
  · rw [if_pos hfail, if_pos hfail]
  · rw [if_neg hfail, if_neg hfail]

/-! ## The loop -/

/-- The bytes that are left are `buff` from `i` on, and are sent block by block. -/
theorem write_loop_sends (ioctl : Ioctl) (buff : List UInt8) (i buff_size : Nat)
    (log : List Event) (hi : i + buff_size = buff.length) :
    ∃ calls, write_loop ioctl buff i buff_size log = some (log ++ calls.flatMap SpiCall.events) ∧
      List.Forall₂ Sends calls (blocks DATA_SIZE DATA_SIZE_pos (buff.drop i)) ∧
      Answered ioctl log calls := by
  have hsmall : DATA_SIZE < 2 ^ 16 := by decide
  induction i, buff_size, log using write_loop.induct with
  | case1 i buff_size log h ih =>
      have hlt : DATA_SIZE < (buff.drop i).length := by rw [List.length_drop]; omega
      obtain ⟨c, hwrite, hc, hret⟩ :=
        spi_write_sends ioctl log hsmall (show i + DATA_SIZE ≤ buff.length by omega)
      obtain ⟨calls, hloop, hcalls, hrets⟩ := ih (log ++ c.events) (by omega)
      refine ⟨c :: calls, ?_, ?_, hret, hrets⟩
      · rw [write_loop, if_pos h, hwrite, List.flatMap_cons, ← List.append_assoc]
        exact hloop
      · rw [blocks_of_lt DATA_SIZE_pos hlt, List.drop_drop]
        exact .cons hc hcalls
  | case2 i buff_size log h =>
      have hrest : (buff.drop i).length = buff_size := by rw [List.length_drop]; omega
      obtain ⟨c, hwrite, hc, hret⟩ :=
        spi_write_sends ioctl log (show buff_size < 2 ^ 16 by omega) (Nat.le_of_eq hi)
      rw [List.take_of_length_le (Nat.le_of_eq hrest)] at hc
      refine ⟨[c], ?_, ?_, hret, trivial⟩
      · rw [write_loop, if_neg h, hwrite, List.flatMap_singleton]
      · rw [blocks_of_le DATA_SIZE_pos (by omega)]
        exact .cons hc .nil

theorem lcd_write_data_sends (ioctl : Ioctl) (buff : List UInt8) (log : List Event) :
    ∃ calls, lcd_write_data ioctl buff buff.length log =
        some (log ++ .gpio LCD_PIN_DC 1 :: calls.flatMap SpiCall.events) ∧
      List.Forall₂ Sends calls (blocks DATA_SIZE DATA_SIZE_pos buff) ∧
      Answered ioctl (log ++ [.gpio LCD_PIN_DC 1]) calls := by
  obtain ⟨calls, hloop, hcalls⟩ := write_loop_sends ioctl buff 0 buff.length
    (log ++ [.gpio LCD_PIN_DC 1]) (Nat.zero_add _)
  rw [List.append_assoc, List.singleton_append] at hloop
  exact ⟨calls, hloop, hcalls⟩

theorem spiCalls_sent (log : List Event) (pin value : Nat) (calls : List SpiCall) :
    spiCalls (log ++ .gpio pin value :: calls.flatMap SpiCall.events) = spiCalls log ++ calls := by
  rw [spiCalls_append]
  exact congrArg (spiCalls log ++ ·) (spiCalls_events calls)

/-- The bytes sent are the blocks. -/
theorem bufs_of_sends {calls : List SpiCall} {bs : List (List UInt8)}
    (h : List.Forall₂ Sends calls bs) : calls.map (·.tr.tx_buf) = bs := by
  induction h with
  | nil => rfl
  | cons hc _ ih => rw [List.map_cons, hc.buf, ih]

theorem sends_of_mem {calls : List SpiCall} {bs : List (List UInt8)}
    (h : List.Forall₂ Sends calls bs) {c : SpiCall} (hc : c ∈ calls) : Sends c c.tr.tx_buf := by
  induction h with
  | nil => cases hc
  | cons hd _ ih =>
      rcases List.mem_cons.mp hc with rfl | hc
      · exact hd.buf.symm ▸ hd
      · exact ih hc

/-! ## What `lcd_write_data` sends -/

/-- A buffer of at least one byte is sent without loss: the transfers one after the other are
    its bytes, each has between 1 and `DATA_SIZE` of them and its size as its `len`, all but the
    last are of `DATA_SIZE` bytes, and there are `⌈n / DATA_SIZE⌉`. -/
theorem lcd_write_data_splits (ioctl : Ioctl) (buff : List UInt8) (log : List Event)
    (hn : 1 ≤ buff.length) :
    ∃ log' calls, lcd_write_data ioctl buff buff.length log = some log' ∧
      spiCalls log' = spiCalls log ++ calls ∧
      (calls.map (·.tr.tx_buf)).flatten = buff ∧
      (∀ c ∈ calls, 1 ≤ c.tr.tx_buf.length ∧ c.tr.tx_buf.length ≤ DATA_SIZE ∧
        c.size = c.tr.tx_buf.length ∧ c.tr.len.toNat = c.size) ∧
      (∀ c ∈ calls.dropLast, c.tr.tx_buf.length = DATA_SIZE) ∧
      calls.length = (buff.length + DATA_SIZE - 1) / DATA_SIZE := by
  obtain ⟨calls, hrun, hcalls, -⟩ := lcd_write_data_sends ioctl buff log
  have hbufs := bufs_of_sends hcalls
  have hmem {c : SpiCall} (hc : c ∈ calls) :
      c.tr.tx_buf ∈ blocks DATA_SIZE DATA_SIZE_pos buff := by
    rw [← hbufs]
    exact List.mem_map_of_mem hc
  refine ⟨_, calls, hrun, spiCalls_sent log LCD_PIN_DC 1 calls, ?_, ?_, ?_, ?_⟩
  · rw [hbufs, blocks_flatten]
  · intro c hc
    obtain ⟨hlow, hhigh⟩ := blocks_bounds DATA_SIZE_pos hn _ (hmem hc)
    have hsends := sends_of_mem hcalls hc
    exact ⟨hlow, hhigh, hsends.size, hsends.len⟩
  · intro c hc
    refine blocks_dropLast_full DATA_SIZE_pos buff _ ?_
    rw [← hbufs, ← List.map_dropLast]
    exact List.mem_map_of_mem hc
  · rw [← blocks_length DATA_SIZE_pos hn, ← hbufs, List.length_map]

/-- Buffers of 1000 and of 2001 bytes, sent through a driver that reports an error for its second
    transfer: one call, and three calls the last of which sends a single byte. -/
theorem lcd_write_data_splits_blocks :
    (∃ log' calls, lcd_write_data (fun log _ => if (spiCalls log).length = 1 then -1 else 1)
        (List.replicate 1000 7) 1000 [] = some log' ∧
      spiCalls log' = calls ∧ (calls.map (·.tr.tx_buf)).flatten = List.replicate 1000 7 ∧
      calls.length = 1) ∧
    ∃ log' calls, lcd_write_data (fun log _ => if (spiCalls log).length = 1 then -1 else 1)
        (List.replicate 2000 7 ++ [8]) 2001 [] = some log' ∧
      spiCalls log' = calls ∧
      (calls.map (·.tr.tx_buf)).flatten = List.replicate 2000 7 ++ [8] ∧
      (∀ c ∈ calls.dropLast, c.tr.tx_buf.length = 1000) ∧ calls.length = 3 := by
  have hone : (List.replicate 1000 (7 : UInt8)).length = 1000 := List.length_replicate
  have hthree : (List.replicate 2000 (7 : UInt8) ++ [8]).length = 2001 := by
    rw [List.length_append, List.length_replicate, List.length_singleton]
  constructor
  · obtain ⟨log', calls, hrun, hcalls, hbytes, -, -, hcount⟩ := lcd_write_data_splits
      (fun log _ => if (spiCalls log).length = 1 then -1 else 1) (List.replicate 1000 7) []
      (by rw [hone]; decide)
    rw [hone] at hrun hcount
    exact ⟨log', calls, hrun, hcalls, hbytes, hcount⟩
  · obtain ⟨log', calls, hrun, hcalls, hbytes, -, hfull, hcount⟩ := lcd_write_data_splits
      (fun log _ => if (spiCalls log).length = 1 then -1 else 1) (List.replicate 2000 7 ++ [8]) []
      (by rw [hthree]; decide)
    rw [hthree] at hrun hcount
    exact ⟨log', calls, hrun, hcalls, hbytes, hfull, hcount⟩

/-! ## The frame buffer -/

theorem length_flatMap_bytesOf (cs : List UInt16) :
    (cs.flatMap bytesOf).length = 2 * cs.length := by
  induction cs with
  | nil => rfl
  | cons c cs ih =>
      rw [List.flatMap_cons, List.length_append, ih, List.length_cons]
      simp only [bytesOf, List.length_cons, List.length_nil]
      omega

/-- The screen goes out whole, pixel after pixel, in 154 transfers. -/
theorem lcd_update_screen_sends (ioctl : Ioctl) (fb : FrameBuffer) (log : List Event) :
    ∃ log' calls, lcd_update_screen ioctl fb log = some log' ∧
      spiCalls log' = spiCalls log ++ calls ∧
      (calls.map (·.tr.tx_buf)).flatten = fb.toList.flatMap bytesOf ∧ calls.length = 154 := by
  have hlen : (fb.toList.flatMap bytesOf).length = 2 * LCD_WIDTH * LCD_HEIGHT := by
    rw [length_flatMap_bytesOf, Vector.length_toList, Nat.mul_assoc]
  obtain ⟨calls, hrun, hcalls, -⟩ := lcd_write_data_sends ioctl (fb.toList.flatMap bytesOf) log
  have hbufs := bufs_of_sends hcalls
  rw [hlen] at hrun
  refine ⟨_, calls, hrun, spiCalls_sent log LCD_PIN_DC 1 calls, ?_, ?_⟩
  · rw [hbufs, blocks_flatten]
  · have hcount := blocks_length DATA_SIZE_pos
      (show 0 < (fb.toList.flatMap bytesOf).length by rw [hlen]; decide)
    rw [← hbufs, List.length_map, hlen] at hcount
    exact hcount

end KernelBasecamp.Lcd
