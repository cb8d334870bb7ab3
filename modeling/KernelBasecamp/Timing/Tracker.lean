/-
  The timing module of task07 (task07.c): how long ago the file was last read.

  `jiffies` is the true number of ticks, a natural number; what the module keeps of it is a
  `u32`. A read leaves the new `last_jiffies`, and prints a report of four numbers. `HZ` is the
  number of ticks in a second, a constant of the kernel's configuration. The message of a read
  and `timing_store`, which changes nothing, are left out.

  * `timing_show_text_fits`: a report is a string that fits in the page it is printed into.
  * `elapsed_run`: over any sequence of reads, each reports the seconds since the previous one
    rounded down, wherever the counter wraps.
-/
import KernelBasecamp.Lib.Counter
import KernelBasecamp.Lib.Decimal

namespace KernelBasecamp.Timing

open Lib Lib.Decimal

/-! ## The module -/

/-- The seconds in a number of ticks, as a `u32`. -/
def perHZ (HZ : Nat) (ticks : UInt32) : UInt32 := UInt32.ofNat (ticks.toNat / HZ)

/-- `hh`, `mm` and `ss`. -/
def seconds_to_hh_mm_ss (s : UInt32) : UInt32 × UInt32 × UInt32 :=
  let ss := s % 60
  let s := s / 60
  let mm := s % 60
  let s := s / 60
  let hh := s
  (hh, mm, ss)

/-- The arguments of `sprintf`. -/
structure Report where
  seconds : UInt32
  hh : UInt32
  mm : UInt32
  ss : UInt32
deriving DecidableEq, Repr

/-- "Seconds since last read: ". -/
def sinceText : List UInt8 :=
  [83, 101, 99, 111, 110, 100, 115, 32, 115, 105, 110, 99, 101, 32, 108, 97, 115, 116, 32, 114,
    101, 97, 100, 58, 32]

/-- "Current jiffies time: ". -/
def currentText : List UInt8 :=
  [67, 117, 114, 114, 101, 110, 116, 32, 106, 105, 102, 102, 105, 101, 115, 32, 116, 105, 109,
    101, 58, 32]

/-- `%02u`. -/
def twoDigits (n : Nat) : List UInt8 := if n < 10 then 48 :: natText n else natText n

def Report.text (r : Report) : List UInt8 :=
  sinceText ++ natText r.seconds.toNat ++ [10] ++ currentText ++ natText r.hh.toNat ++ [58] ++
    twoDigits r.mm.toNat ++ [58] ++ twoDigits r.ss.toNat ++ [10]

structure Shown where
  last_jiffies : UInt32
  report : Report
  buf : List UInt8
deriving DecidableEq, Repr

def timing_show (HZ : Nat) (last_jiffies : UInt32) (jiffies : Nat) : Shown :=
  let current_jiffies := UInt32.ofNat jiffies
  let (hh, mm, ss) := seconds_to_hh_mm_ss (perHZ HZ current_jiffies)
  let report : Report := ⟨perHZ HZ (current_jiffies - last_jiffies), hh, mm, ss⟩
  ⟨current_jiffies, report, report.text⟩

/-- The `last_jiffies` that `init` sets. -/
def init (jiffies : Nat) : UInt32 := UInt32.ofNat jiffies

/-- Reads at the given ticks, one after the other. -/
def timing_reads (HZ : Nat) (last_jiffies : UInt32) : List Nat → List Shown
  | [] => []
  | jiffies :: ts =>
      let shown := timing_show HZ last_jiffies jiffies
      shown :: timing_reads HZ shown.last_jiffies ts

def PAGE_SIZE : Nat := 4096

theorem nul_not_mem_twoDigits (n : Nat) : 0 ∉ twoDigits n := by
  have hnat := nul_not_mem_natText n
  unfold twoDigits
  split
  · exact List.not_mem_cons_of_ne_of_not_mem (by decide) hnat
  · exact hnat

theorem length_natText_u32 (n : UInt32) : (natText n.toNat).length ≤ 10 :=
  length_natText_le (by decide) (Nat.lt_trans n.toNat_lt (by decide))

theorem length_twoDigits_u32 (n : UInt32) : (twoDigits n.toNat).length ≤ 11 := by
  have hnat := length_natText_u32 n
  unfold twoDigits
  split
  · exact Nat.succ_le_succ hnat
  · exact Nat.le_succ_of_le hnat

/-- `sprintf` stays in the page, and `strlen` is the length of its text. -/
theorem timing_show_text_fits (HZ : Nat) (last_jiffies : UInt32) (jiffies : Nat) :
    0 ∉ (timing_show HZ last_jiffies jiffies).buf ∧
      (timing_show HZ last_jiffies jiffies).buf.length < PAGE_SIZE := by
  obtain ⟨r, hr⟩ : ∃ r : Report, (timing_show HZ last_jiffies jiffies).buf = r.text := ⟨_, rfl⟩
  rw [hr]
  have hsince : 0 ∉ sinceText ∧ sinceText.length = 25 := by decide
  have hcurrent : 0 ∉ currentText ∧ currentText.length = 22 := by decide
  have hseconds := length_natText_u32 r.seconds
  have hhh := length_natText_u32 r.hh
  have hmm := length_twoDigits_u32 r.mm
  have hss := length_twoDigits_u32 r.ss
  unfold Report.text PAGE_SIZE
  constructor
  · simp [hsince.1, hcurrent.1, nul_not_mem_natText, nul_not_mem_twoDigits]
  · simp only [List.length_append, List.length_singleton, hsince.2, hcurrent.2]
    omega

/-! ## One read -/

theorem toNat_perHZ (HZ : Nat) (ticks : UInt32) : (perHZ HZ ticks).toNat = ticks.toNat / HZ :=
  UInt32.toNat_ofNat_of_lt' (Nat.lt_of_le_of_lt (Nat.div_le_self _ _) ticks.toNat_lt)

/-- Hours, minutes and seconds of the time since the counter last wrapped. -/
def Clock (HZ jiffies : Nat) (r : Report) : Prop :=
  r.mm.toNat < 60 ∧ r.ss.toNat < 60 ∧
    3600 * r.hh.toNat + 60 * r.mm.toNat + r.ss.toNat = jiffies % 2 ^ 32 / HZ

theorem timing_show_clock (HZ : Nat) (last_jiffies : UInt32) (jiffies : Nat) :
    Clock HZ jiffies (timing_show HZ last_jiffies jiffies).report := by
  have hs : (perHZ HZ (UInt32.ofNat jiffies)).toNat = jiffies % 2 ^ 32 / HZ := by
    rw [toNat_perHZ, UInt32.toNat_ofNat']
  have hsixty : (60 : UInt32).toNat = 60 := rfl
  unfold Clock timing_show seconds_to_hh_mm_ss
  rw [← hs]
  simp only [UInt32.toNat_mod, UInt32.toNat_div, hsixty]
  omega

/-- The difference is right if the gap fits in 32 bits. -/
theorem timing_show_seconds (HZ : Nat) {last jiffies : Nat} (h : last ≤ jiffies)
    (hgap : jiffies - last < 2 ^ 32) :
    (timing_show HZ (UInt32.ofNat last) jiffies).report.seconds.toNat = (jiffies - last) / HZ := by
  have hdiff : (UInt32.ofNat jiffies - UInt32.ofNat last).toNat = jiffies - last :=
    ofNat_sub_ofNat h hgap
  exact (toNat_perHZ HZ _).trans (by rw [hdiff])

/-! ## Any sequence of reads -/

/-- Ticks that never decrease, with gaps below `2 ^ 32`. -/
def Ticks (ts : List Nat) : Prop := List.IsChain (fun t t' => t ≤ t' ∧ t' - t < 2 ^ 32) ts

theorem reads_seconds (HZ : Nat) {t₀ : Nat} {ts : List Nat} (hts : Ticks (t₀ :: ts)) :
    (timing_reads HZ (init t₀) ts).map (·.report.seconds.toNat) =
      (gaps (t₀ :: ts)).map (· / HZ) := by
  induction ts generalizing t₀ with
  | nil => rfl
  | cons t ts ih =>
      obtain ⟨⟨hle, hgap⟩, hrest⟩ := List.isChain_cons_cons.mp hts
      -- `last_jiffies` is now what `init` would have set
      rw [gaps, List.map_cons, ← ih hrest, ← timing_show_seconds HZ hle hgap]
      rfl

theorem reads_clock (HZ : Nat) (last_jiffies : UInt32) (ts : List Nat) :
    List.Forall₂ (fun t (s : Shown) => Clock HZ t s.report ∧ s.buf = s.report.text) ts
      (timing_reads HZ last_jiffies ts) := by
  induction ts generalizing last_jiffies with
  | nil => exact .nil
  | cons t ts ih => exact .cons ⟨timing_show_clock HZ last_jiffies t, rfl⟩ (ih _)

/-- Each read reports the whole seconds since the previous read (or since `init`), so that `k`
    reads in a row report at most the time that they span, and lose less than `k` seconds of it;
    and each prints the time of the counter as hours, minutes and seconds. -/
theorem elapsed_run {HZ : Nat} (hHZ : 1 ≤ HZ) {t₀ : Nat} {ts : List Nat} (hts : Ticks (t₀ :: ts)) :
    (timing_reads HZ (init t₀) ts).map (·.report.seconds.toNat) =
      (gaps (t₀ :: ts)).map (· / HZ) ∧
    (∀ i k a b : Nat, 1 ≤ k → (t₀ :: ts)[i]? = some a → (t₀ :: ts)[i + k]? = some b →
      let reported : Nat :=
        ((((timing_reads HZ (init t₀) ts).drop i).take k).map (·.report.seconds.toNat)).sum
      (reported : ℚ) ≤ ((b : ℚ) - a) / HZ ∧ ((b : ℚ) - a) / HZ - k < reported) ∧
    List.Forall₂ (fun t (s : Shown) => Clock HZ t s.report ∧ s.buf = s.report.text) ts
      (timing_reads HZ (init t₀) ts) := by
  refine ⟨reads_seconds HZ hts, ?_, reads_clock HZ _ ts⟩
  intro i k a b hk ha hb reported
  -- the gaps of the `k` reads
  have hsum := sum_gaps (hts.imp fun _ _ h => h.1) ha hb
  have hik : i + k < ts.length + 1 := (List.getElem?_eq_some_iff.mp hb).1
  have hlen : (((gaps (t₀ :: ts)).drop i).take k).length = k := by
    rw [List.length_take, List.length_drop, length_gaps]
    omega
  have hne : ((gaps (t₀ :: ts)).drop i).take k ≠ [] := List.ne_nil_of_length_pos (by omega)
  have hspan : (b : ℚ) - a = ((((gaps (t₀ :: ts)).drop i).take k).sum : ℚ) := by
    rw [← hsum, Nat.cast_add, add_sub_cancel_left]
  have hreported : reported = ((((gaps (t₀ :: ts)).drop i).take k).map (· / HZ)).sum := by
    rw [List.map_take, List.map_drop, ← reads_seconds HZ hts, ← List.map_drop, ← List.map_take]
  have hlow := lt_sum_floor hHZ _ hne
  rw [hlen] at hlow
  rw [hspan, hreported]
  exact ⟨sum_floor_le hHZ _, hlow⟩

/-- Two reads at 250 ticks a second, with the counter wrapping between them. -/
theorem elapsed_run_wrap :
    (timing_reads 250 (init 4294960000) [4294967000, 4294968000]).map (·.report.seconds.toNat) =
      [28, 4] := by
  have hticks : Ticks [4294960000, 4294967000, 4294968000] := by
    unfold Ticks
    decide
  exact (elapsed_run (by decide : 1 ≤ 250) hticks).1

end KernelBasecamp.Timing
