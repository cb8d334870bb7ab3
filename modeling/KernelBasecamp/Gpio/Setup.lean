/-
  c_gpio.c (task04): `setup`, which finds the GPIO registers and maps them.

  A `Host` is what `setup` finds: the descriptors that `open` returns (negative when it fails),
  the contents of the files that it reads, if they can be opened, and which mappings succeed.
  `hardware` starts with whatever is on the stack. The bytes of the device tree are shifted into
  `peri_base` as those of an unsigned number. The text of /proc/cpuinfo has no NUL.

  `setup_spec`: what is mapped and when, and what the results say.
-/
import KernelBasecamp.Lib.Fgets

namespace KernelBasecamp.Gpio

open Lib

def SETUP_OK : Int := 0
def SETUP_DEVMEM_FAIL : Int := 1
def SETUP_MALLOC_FAIL : Int := 2
def SETUP_MMAP_FAIL : Int := 3
def SETUP_CPUINFO_FAIL : Int := 4
def SETUP_NOT_RPI_FAIL : Int := 5

def BCM2708_PERI_BASE_DEFAULT : BitVec 32 := 0x20000000#32
def BCM2709_PERI_BASE_DEFAULT : BitVec 32 := 0x3f000000#32
def GPIO_BASE_OFFSET : BitVec 32 := 0x200000#32

structure Host where
  /-- /dev/gpiomem -/
  gpiomem : Int
  mmap_gpiomem : Bool
  /-- /proc/device-tree/soc/ranges -/
  ranges : Option (List UInt8)
  /-- /proc/cpuinfo -/
  cpuinfo : Option (List UInt8)
  /-- /dev/mem -/
  mem : Int
  malloc : Bool
  mmap_mem : BitVec 32 → Bool

/-- What `gpio_map` points to. -/
inductive Mapping where
  | gpiomem
  | physical (gpio_base : BitVec 32)
  deriving DecidableEq, Repr

/-! ## The base of the peripherals -/

/-- `isspace` in the C locale. -/
def isspace (c : UInt8) : Bool := 9 ≤ c && c ≤ 13 || c == 32

/-- "Hardware" -/
def hardwareKey : List UInt8 := [72, 97, 114, 100, 119, 97, 114, 101]

/-- What `sscanf(buffer, "Hardware\t: %s", hardware)` stores, if it does. -/
def scanHardware (buffer : List UInt8) : Option (List UInt8) :=
  if hardwareKey <+: buffer then
    match (buffer.drop hardwareKey.length).dropWhile isspace with
    | 58 :: value =>
        let word := (value.dropWhile isspace).takeWhile fun c => !isspace c
        if word = [] then none else some word
    | _ => none
  else none

/-- The comparisons with "BCM2708", "BCM2835", "BCM2709" and "BCM2836". -/
def chipBase (hardware : List UInt8) : Option (BitVec 32) :=
  if hardware = [66, 67, 77, 50, 55, 48, 56] ∨ hardware = [66, 67, 77, 50, 56, 51, 53] then
    some BCM2708_PERI_BASE_DEFAULT
  else if hardware = [66, 67, 77, 50, 55, 48, 57] ∨ hardware = [66, 67, 77, 50, 56, 51, 54] then
    some BCM2709_PERI_BASE_DEFAULT
  else none

/-- The loop over the reads of `fgets`; `hardware` keeps its value where `sscanf` stores none. -/
def guessBase (hardware : List UInt8) : List (List UInt8) → Option (BitVec 32)
  | [] => none
  | buffer :: buffers =>
      let hardware := (scanHardware buffer).getD hardware
      match chipBase hardware with
      | some peri_base => some peri_base
      | none => guessBase hardware buffers

/-- The four bytes behind the first four, 0 if they are not there. -/
def treeBase (ranges : List UInt8) : BitVec 32 :=
  match (ranges.drop 4).take 4 with
  | [a, b, c, d] => a.toBitVec ++ b.toBitVec ++ c.toBitVec ++ d.toBitVec
  | _ => 0#32

/-- `peri_base`, or the code of the failure to find it. -/
def periBase (h : Host) (hardware : List UInt8) : Except Int (BitVec 32) :=
  match h.ranges with
  | some ranges => .ok (treeBase ranges)
  | none =>
      match h.cpuinfo with
      | none => .error SETUP_CPUINFO_FAIL
      | some text =>
          match guessBase hardware (fgetsAll 10 1023 text) with
          | none => .error SETUP_NOT_RPI_FAIL
          | some peri_base => .ok peri_base

/-- The result, and what has been mapped. -/
def setup (h : Host) (hardware : List UInt8) : Int × Option Mapping :=
  if h.gpiomem > 0 then
    if h.mmap_gpiomem then (SETUP_OK, some .gpiomem) else (SETUP_MMAP_FAIL, none)
  else
    match periBase h hardware with
    | .error code => (code, none)
    | .ok peri_base =>
        if peri_base = 0#32 then (SETUP_NOT_RPI_FAIL, none)
        else
          let gpio_base := peri_base + GPIO_BASE_OFFSET
          if h.mem < 0 then (SETUP_DEVMEM_FAIL, none)
          else if !h.malloc then (SETUP_MALLOC_FAIL, none)
          else if h.mmap_mem gpio_base then (SETUP_OK, some (.physical gpio_base))
          else (SETUP_MMAP_FAIL, none)

/-! ## What is found -/

/-- The chip that a line names, if it is a known one. -/
def named (line : List UInt8) : Option (BitVec 32) := (scanHardware line).bind chipBase

/-- The base that the host's files give: that of the device tree, or that of the first line to
    name a known chip. -/
def Host.Base (h : Host) (base : BitVec 32) : Prop :=
  match h.ranges with
  | some ranges => treeBase ranges = base
  | none => ∃ text ∈ h.cpuinfo, ∃ before line after,
      textLines 10 text = before ++ line :: after ∧ named line = some base ∧
        ∀ l ∈ before, named l = none

/-- A name that is not a known one may as well not be there. -/
theorem guessBase_cons {hardware : List UInt8} (h : chipBase hardware = none)
    (buffer : List UInt8) (buffers : List (List UInt8)) :
    (named buffer = none → ∃ hardware', chipBase hardware' = none ∧
      guessBase hardware (buffer :: buffers) = guessBase hardware' buffers) ∧
    ∀ base, named buffer = some base → guessBase hardware (buffer :: buffers) = some base := by
  unfold named
  rw [guessBase]
  cases hscan : scanHardware buffer with
  | none =>
      refine ⟨fun _ => ⟨hardware, h, ?_⟩, fun base hbase => by cases hbase⟩
      rw [Option.getD_none, h]
  | some word =>
      rw [Option.getD_some, Option.bind_some]
      refine ⟨fun hword => ⟨word, hword, ?_⟩, fun base hbase => ?_⟩
      · rw [hword]
      · rw [hbase]

/-- The loop finds the first line to name a known chip. -/
theorem guessBase_eq {hardware : List UInt8} (h : chipBase hardware = none)
    (buffers : List (List UInt8)) : guessBase hardware buffers = buffers.findSome? named := by
  induction buffers generalizing hardware with
  | nil => rfl
  | cons buffer buffers ih =>
      obtain ⟨hskip, hfound⟩ := guessBase_cons h buffer buffers
      rw [List.findSome?_cons]
      cases hname : named buffer with
      | none =>
          obtain ⟨hardware', h', heq⟩ := hskip hname
          rw [heq]
          exact ih h'
      | some base => exact hfound base hname

/-- The lines of /proc/cpuinfo fit into the buffer, and no chip is named on the stack. -/
structure Host.Fits (h : Host) (hardware : List UInt8) : Prop where
  lines : ∀ text ∈ h.cpuinfo, ∀ l ∈ textLines 10 text, l.length ≤ 1023
  stack : chipBase hardware = none

section

variable {h : Host} {hardware : List UInt8}

theorem periBase_ok (hfits : h.Fits hardware) (base : BitVec 32) :
    periBase h hardware = .ok base ↔ h.Base base := by
  unfold periBase Host.Base
  cases h.ranges with
  | some ranges => simp
  | none =>
      cases hcpuinfo : h.cpuinfo with
      | none => simp
      | some text =>
          have hread : fgetsAll 10 1023 text = textLines 10 text :=
            fgetsAll_eq (hfits.lines text hcpuinfo)
          have hguess := guessBase_eq hfits.stack (textLines 10 text)
          simp only [Option.mem_def, Option.some_inj, exists_eq_left', hread, hguess]
          rw [← List.findSome?_eq_some_iff]
          cases (textLines 10 text).findSome? named with
          | none => simp
          | some found => simp

/-- Without a base it is told what is missing. -/
theorem periBase_error (hfits : h.Fits hardware) (code : Int) :
    periBase h hardware = .error code ↔ h.ranges = none ∧ (∀ base, ¬ h.Base base) ∧
      code = if h.cpuinfo = none then SETUP_CPUINFO_FAIL else SETUP_NOT_RPI_FAIL := by
  have hnone : (∀ base, ¬ h.Base base) ↔ ∀ base, periBase h hardware ≠ .ok base :=
    forall_congr' fun base => not_congr (periBase_ok hfits base).symm
  rw [hnone]
  unfold periBase
  cases h.ranges with
  | some ranges => simp
  | none =>
      cases h.cpuinfo with
      | none => simp [eq_comm]
      | some text =>
          cases hguess : guessBase hardware (fgetsAll 10 1023 text) with
          | none => simp [hguess, eq_comm]
          | some found => simp [hguess]

theorem setup_direct (hfd : h.gpiomem > 0) : setup h hardware =
    if h.mmap_gpiomem then (SETUP_OK, some .gpiomem) else (SETUP_MMAP_FAIL, none) := if_pos hfd

/-- The descriptor of /dev/gpiomem is not positive. -/
theorem setup_reverts (hardware : List UInt8) (hfd : ¬ h.gpiomem > 0) :
    (∀ code, periBase h hardware = .error code → setup h hardware = (code, none)) ∧
    ∀ base, periBase h hardware = .ok base → setup h hardware =
      if base = 0#32 then (SETUP_NOT_RPI_FAIL, none)
      else if h.mem < 0 then (SETUP_DEVMEM_FAIL, none)
      else if !h.malloc then (SETUP_MALLOC_FAIL, none)
      else if h.mmap_mem (base + GPIO_BASE_OFFSET) then
        (SETUP_OK, some (.physical (base + GPIO_BASE_OFFSET)))
      else (SETUP_MMAP_FAIL, none) := by
  unfold setup
  rw [if_neg hfd]
  refine ⟨fun code hcode => ?_, fun base hbase => ?_⟩
  · rw [hcode]
  · rw [hbase]

/-- What `setup` needs to map the registers behind /dev/mem. -/
def Host.Offers (h : Host) (base : BitVec 32) : Prop :=
  base ≠ 0#32 ∧ 0 ≤ h.mem ∧ h.malloc = true ∧ h.mmap_mem (base + GPIO_BASE_OFFSET) = true

/-- The base is unique. -/
theorem Host.Base.unique (hfits : h.Fits hardware) {base base' : BitVec 32} (hb : h.Base base)
    (hb' : h.Base base') : base = base' := by
  have hok := (periBase_ok hfits base).mpr hb
  rw [(periBase_ok hfits base').mpr hb'] at hok
  exact (Except.ok.inj hok).symm

theorem setup_physical (hfits : h.Fits hardware) (hfd : ¬ h.gpiomem > 0) (a : BitVec 32) :
    (setup h hardware).2 = some (.physical a) ↔
      ∃ base, h.Base base ∧ h.Offers base ∧ a = base + GPIO_BASE_OFFSET := by
  obtain ⟨herror, hok⟩ := setup_reverts hardware hfd
  cases hbase : periBase h hardware with
  | error code =>
      rw [herror code hbase]
      refine iff_of_false nofun ?_
      rintro ⟨base, hb, -⟩
      rw [(periBase_ok hfits base).mpr hb] at hbase
      cases hbase
  | ok base =>
      have hb := (periBase_ok hfits base).mp hbase
      have hone : (∃ base, h.Base base ∧ h.Offers base ∧ a = base + GPIO_BASE_OFFSET) ↔
          h.Offers base ∧ a = base + GPIO_BASE_OFFSET := by
        constructor
        · rintro ⟨base', hb', hoffers⟩
          rwa [hb.unique hfits hb']
        · exact fun hoffers => ⟨base, hb, hoffers⟩
      rw [hone, hok base hbase]
      unfold Host.Offers
      by_cases hzero : base = 0#32
      · simp [hzero]
      · by_cases hmem : h.mem < 0
        · simp [hzero, hmem]
        · have hmem' : 0 ≤ h.mem := Int.not_lt.mp hmem
          cases hmalloc : h.malloc with
          | false => simp [hzero, hmem, hmem']
          | true =>
              cases hmmap : h.mmap_mem (base + GPIO_BASE_OFFSET) with
              | false => simp [hzero, hmem, hmem']
              | true => simp [hzero, hmem, hmem', eq_comm]

theorem setup_ok_iff (h : Host) (hfits : h.Fits hardware) :
    (setup h hardware).1 = SETUP_OK ↔ (setup h hardware).2 ≠ none := by
  by_cases hfd : h.gpiomem > 0
  · rw [setup_direct hfd]
    cases h.mmap_gpiomem <;> decide
  · obtain ⟨herror, hok⟩ := setup_reverts hardware hfd
    cases hbase : periBase h hardware with
    | error code =>
        obtain ⟨-, -, hcode⟩ := (periBase_error hfits code).mp hbase
        rw [herror code hbase, hcode]
        split <;> decide
    | ok base =>
        rw [hok base hbase]
        split_ifs <;> simp [SETUP_OK, SETUP_NOT_RPI_FAIL, SETUP_DEVMEM_FAIL, SETUP_MALLOC_FAIL,
          SETUP_MMAP_FAIL]

theorem setup_not_rpi_iff (hfits : h.Fits hardware) :
    (setup h hardware).1 = SETUP_NOT_RPI_FAIL ↔
      ¬ h.gpiomem > 0 ∧ (h.ranges ≠ none ∨ h.cpuinfo ≠ none) ∧
        ∀ base, h.Base base → base = 0#32 := by
  by_cases hfd : h.gpiomem > 0
  · refine iff_of_false ?_ fun hno => hno.1 hfd
    rw [setup_direct hfd]
    cases h.mmap_gpiomem <;> decide
  · rw [and_iff_right hfd]
    obtain ⟨herror, hok⟩ := setup_reverts hardware hfd
    cases hbase : periBase h hardware with
    | error code =>
        obtain ⟨hranges, hnone, hcode⟩ := (periBase_error hfits code).mp hbase
        rw [herror code hbase, hcode]
        have hall : ∀ base, h.Base base → base = 0#32 := fun base hb => absurd hb (hnone base)
        rw [and_iff_left hall, or_iff_right (not_not.mpr hranges)]
        split
        · next hcpuinfo => exact iff_of_false (by decide) (not_not.mpr hcpuinfo)
        · next hcpuinfo => exact iff_of_true rfl hcpuinfo
    | ok base =>
        have hb := (periBase_ok hfits base).mp hbase
        have hfile : h.ranges ≠ none ∨ h.cpuinfo ≠ none := by
          by_contra hboth
          rw [not_or, not_not, not_not] at hboth
          unfold periBase at hbase
          rw [hboth.1, hboth.2] at hbase
          cases hbase
        rw [and_iff_right hfile, hok base hbase]
        by_cases hzero : base = 0#32
        · refine iff_of_true (by rw [if_pos hzero]) fun base' hb' => ?_
          rw [← hb.unique hfits hb', hzero]
        · refine iff_of_false ?_ fun hall => hzero (hall base hb)
          rw [if_neg hzero]
          split_ifs <;> simp [SETUP_OK, SETUP_NOT_RPI_FAIL, SETUP_DEVMEM_FAIL, SETUP_MALLOC_FAIL,
            SETUP_MMAP_FAIL]

/-- `setup` succeeds just when it maps the registers: behind /dev/gpiomem if that can be opened
    with a positive descriptor, and otherwise behind /dev/mem at the base of the device tree or,
    without one, of the first line of /proc/cpuinfo to name a known chip, if there is such a
    base, it is not 0 and the rest succeeds. It takes the host for another machine just when a
    file can be read and there is no base, or the base is 0. -/
theorem setup_spec (hfits : h.Fits hardware) :
    ((setup h hardware).1 = SETUP_OK ↔ (setup h hardware).2 ≠ none) ∧
    ((setup h hardware).2 = some .gpiomem ↔ h.gpiomem > 0 ∧ h.mmap_gpiomem = true) ∧
    (∀ a, (setup h hardware).2 = some (.physical a) ↔ ¬ h.gpiomem > 0 ∧
      ∃ base, h.Base base ∧ h.Offers base ∧ a = base + GPIO_BASE_OFFSET) ∧
    ((setup h hardware).1 = SETUP_NOT_RPI_FAIL ↔ ¬ h.gpiomem > 0 ∧
      (h.ranges ≠ none ∨ h.cpuinfo ≠ none) ∧ ∀ base, h.Base base → base = 0#32) := by
  refine ⟨setup_ok_iff h hfits, ?_, fun a => ?_, setup_not_rpi_iff hfits⟩
  · by_cases hfd : h.gpiomem > 0
    · rw [setup_direct hfd, and_iff_right hfd]
      cases h.mmap_gpiomem <;> decide
    · refine iff_of_false ?_ fun hboth => hfd hboth.1
      obtain ⟨herror, hok⟩ := setup_reverts hardware hfd
      cases hbase : periBase h hardware with
      | error code =>
          rw [herror code hbase]
          exact nofun
      | ok base =>
          rw [hok base hbase]
          split_ifs <;> exact nofun
  · by_cases hfd : h.gpiomem > 0
    · refine iff_of_false ?_ fun hboth => hboth.1 hfd
      rw [setup_direct hfd]
      cases h.mmap_gpiomem <;> exact nofun
    · rw [and_iff_right hfd]
      exact setup_physical hfits hfd a

end

/-- "Features\t: swp\nHardware\t: BCM2835\n", and no device tree. -/
def firstModel : Host where
  gpiomem := -1
  mmap_gpiomem := false
  ranges := none
  cpuinfo := some [70, 101, 97, 116, 117, 114, 101, 115, 9, 58, 32, 115, 119, 112, 10, 72, 97, 114,
    100, 119, 97, 114, 101, 9, 58, 32, 66, 67, 77, 50, 56, 51, 53, 10]
  mem := 3
  malloc := true
  mmap_mem := fun _ => true

theorem setup_spec_first_model : (setup firstModel []).1 = SETUP_OK ∧
    (setup firstModel []).2 = some (.physical 0x20200000#32) := by
  have hfits : firstModel.Fits [] := by
    refine ⟨fun text htext => ?_, by decide⟩
    cases htext
    decide
  obtain ⟨hok, -, hphysical, -⟩ := setup_spec hfits
  have hbase : firstModel.Base BCM2708_PERI_BASE_DEFAULT := by
    refine ⟨_, rfl, [[70, 101, 97, 116, 117, 114, 101, 115, 9, 58, 32, 115, 119, 112, 10]],
      [72, 97, 114, 100, 119, 97, 114, 101, 9, 58, 32, 66, 67, 77, 50, 56, 51, 53, 10], [], ?_⟩
    decide
  have hmapped := (hphysical 0x20200000#32).mpr
    ⟨by decide, BCM2708_PERI_BASE_DEFAULT, hbase, ⟨by decide, by decide, rfl, rfl⟩, by decide⟩
  exact ⟨hok.mpr (by rw [hmapped]; exact Option.some_ne_none _), hmapped⟩

end KernelBasecamp.Gpio
