/-
  The programs around the run-length coder: `main` of encoder.c and of decoder.c.

  Both open the input, check its size, open the output and hand the two streams over; they
  differ in the least size and in the function. A disk maps names to files; whether a file can
  be opened for reading or for writing is a property of its name, and different names are
  different files. Opening the output truncates it, also when it is the input: the input stream
  then reads from an empty file. Both streams are closed on every way out, and writes succeed.

  * `pack_unpack_iff`: when the decoder gives back what the encoder was given, and what else on
    the disk the two programs can change.
-/
import KernelBasecamp.Rle.RoundTrip

namespace KernelBasecamp.Rle

open Lib.RunLength

structure Disk (α : Type) where
  files : α → Option (List UInt8)
  readable : α → Bool
  writable : α → Bool

variable {α : Type} [DecidableEq α]

def Disk.store (d : Disk α) (name : α) (bytes : List UInt8) : Disk α :=
  { d with files := Function.update d.files name (some bytes) }

/-- `main` with the least size of the input and what is done with the streams: the exit code
    and the disk. -/
def recode (least : Nat) (work : List UInt8 → OutFile → Int × OutFile) (d : Disk α) :
    List α → Int × Disk α
  | _ :: input :: output :: _ =>
      match d.files input with
      | none => (1, d)
      | some bytes =>
          if d.readable input = false then (1, d)
          else if bytes.length < least then (1, d)
          else if d.writable output = false then (1, d)
          else
            let d := d.store output []
            let (ret, out) := work ((d.files input).getD []) OutFile.empty
            (ret, d.store output out.bytes)
  | _ => (1, d)

/-- `main` of encoder.c. -/
def encoder_main (p₀ : UInt8) : Disk α → List α → Int × Disk α := recode 1 (encode p₀)

/-- `main` of decoder.c. -/
def decoder_main : Disk α → List α → Int × Disk α := recode 2 decode

/-! ## One program -/

/-- The program gets past its checks, with the bytes `xs` in its input. -/
structure Disk.Accepts (d : Disk α) (least : Nat) (input output : α) (xs : List UInt8) : Prop where
  file : d.files input = some xs
  readable : d.readable input = true
  least : least ≤ xs.length
  writable : d.writable output = true

section

variable {d : Disk α} {least : Nat} {work : List UInt8 → OutFile → Int × OutFile}
  {name input output : α} {xs : List UInt8}

theorem recode_accepted (h : d.Accepts least input output xs) :
    recode least work d [name, input, output] =
      ((work (if input = output then [] else xs) OutFile.empty).1,
        d.store output (work (if input = output then [] else xs) OutFile.empty).2.bytes) := by
  have hread : ((d.store output []).files input).getD [] = if input = output then [] else xs := by
    unfold Disk.store
    by_cases hio : input = output
    · subst hio
      simp
    · simp [hio, h.file]
  unfold recode
  simp only [h.file, h.readable, Bool.true_eq_false, if_false, Nat.not_lt.mpr h.least, h.writable,
    hread]
  unfold Disk.store
  rw [Function.update_idem]

/-- A program that does not get past its checks exits with 1 and changes nothing. -/
theorem recode_refused (hfile : d.files input = some xs)
    (h : ¬ d.Accepts least input output xs) :
    recode least work d [name, input, output] = (1, d) := by
  unfold recode
  simp only [hfile]
  split
  · rfl
  · next hr =>
      split
      · rfl
      · next hl =>
          split
          · rfl
          · next hw =>
              exact absurd ⟨hfile, by simpa using hr, Nat.not_lt.mp hl, by simpa using hw⟩ h

/-- Only the output changes. -/
theorem recode_frame {other : α} (hother : other ≠ output) :
    (recode least work d [name, input, output]).2.files other = d.files other := by
  cases hfile : d.files input with
  | none =>
      unfold recode
      simp only [hfile]
  | some xs =>
      by_cases h : d.Accepts least input output xs
      · rw [recode_accepted h]
        exact Function.update_of_ne hother _ _
      · rw [recode_refused hfile h]

end

/-! ## Encoder and decoder, one after the other -/

section

variable {d : Disk α} {input packed output name name' : α} {xs : List UInt8} {p₀ : UInt8}

/-- What the encoder finds in its input: encoding an empty stream comes to encoding `p₀`. -/
def found (p₀ : UInt8) (input packed : α) (xs : List UInt8) : List UInt8 :=
  if input = packed then [p₀] else xs

theorem encoder_main_accepted (h : d.Accepts 1 input packed xs) :
    encoder_main p₀ d [name, input, packed] =
      (0, d.store packed (encoded p₀ (found p₀ input packed xs))) := by
  have hxs : xs ≠ [] := List.length_pos_iff.mp h.least
  unfold encoder_main found
  rw [recode_accepted h]
  by_cases hio : input = packed
  · rw [if_pos hio, if_pos hio]
    rfl
  · rw [if_neg hio, if_neg hio]
    obtain ⟨p, inp, rfl⟩ := List.exists_cons_of_ne_nil hxs
    rfl

theorem found_ne_nil (h : xs ≠ []) : found p₀ input packed xs ≠ [] := by
  unfold found
  split
  · exact List.cons_ne_nil _ _
  · exact h

theorem decode_encoded {zs : List UInt8} (hzs : zs ≠ []) :
    decode (encoded p₀ zs) OutFile.empty = (0, ⟨zs, none⟩) := by
  rw [encoded_of_ne_nil p₀ hzs, decode_wire (canonical_pack (by decide) zs).le, expand_pack,
    OutFile.empty, OutFile.put_of_room_none, List.nil_append]

/-- No encoding is too short for the decoder. -/
theorem two_le_length_encoded {zs : List UInt8} (hzs : zs ≠ []) :
    2 ≤ (encoded p₀ zs).length := by
  obtain ⟨p, inp, rfl⟩ := List.exists_cons_of_ne_nil hzs
  have hpack : 0 < (pack 255 (p :: inp)).length :=
    List.length_pos_iff.mpr (packFrom_ne_nil _ _ _ _)
  rw [encoded_of_ne_nil p₀ hzs, length_wire]
  omega

/-- The decoder on the file the encoder has written. -/
theorem decoder_main_encoded {zs : List UInt8} (hzs : zs ≠ []) (hr : d.readable packed = true)
    (hw : d.writable output = true) :
    decoder_main (d.store packed (encoded p₀ zs)) [name', packed, output] =
      (0, (d.store packed (encoded p₀ zs)).store output (if packed = output then [] else zs)) := by
  have haccepts : (d.store packed (encoded p₀ zs)).Accepts 2 packed output (encoded p₀ zs) :=
    ⟨Function.update_self _ _ _, hr, two_le_length_encoded hzs, hw⟩
  unfold decoder_main
  rw [recode_accepted haccepts]
  by_cases hio : packed = output
  · rw [if_pos hio, if_pos hio]
    rfl
  · rw [if_neg hio, if_neg hio, decode_encoded hzs]

/-- The two commands of test.sh: their exit codes and the disk. -/
def packUnpack (p₀ : UInt8) (d : Disk α) (name name' input packed output : α) :
    Int × Int × Disk α :=
  let (ret, d) := encoder_main p₀ d [name, input, packed]
  let (ret', d) := decoder_main d [name', packed, output]
  (ret, ret', d)

/-- Both programs succeed and give the input back. -/
def Returns (r : Int × Int × Disk α) (output : α) (xs : List UInt8) : Prop :=
  r.1 = 0 ∧ r.2.1 = 0 ∧ r.2.2.files output = some xs

/-- Where the encoder gets past its checks. -/
theorem returns_iff (h : d.Accepts 1 input packed xs) :
    Returns (packUnpack p₀ d name name' input packed output) output xs ↔
      d.readable packed = true ∧ d.writable output = true ∧ packed ≠ output ∧
        (input = packed → xs = [p₀]) := by
  have hxs : xs ≠ [] := List.length_pos_iff.mp h.least
  have hzs : found p₀ input packed xs ≠ [] := found_ne_nil hxs
  unfold Returns packUnpack
  rw [encoder_main_accepted h]
  dsimp only
  by_cases hopen : d.readable packed = true ∧ d.writable output = true
  · rw [decoder_main_encoded hzs hopen.1 hopen.2]
    have hout : ((d.store packed (encoded p₀ (found p₀ input packed xs))).store output
        (if packed = output then [] else found p₀ input packed xs)).files output =
        some (if packed = output then [] else found p₀ input packed xs) :=
      Function.update_self _ _ _
    rw [hout, Option.some.injEq]
    by_cases hpo : packed = output
    · simp [hpo, hxs.symm]
    · by_cases hip : input = packed
      · simp [found, hpo, hip, hopen, eq_comm]
      · simp [found, hpo, hip, hopen]
  · -- the decoder does not get past its checks
    have hrefused : decoder_main (d.store packed (encoded p₀ (found p₀ input packed xs)))
        [name', packed, output] = (1, d.store packed (encoded p₀ (found p₀ input packed xs))) := by
      refine recode_refused (Function.update_self _ _ _) fun haccepts => hopen ?_
      exact ⟨haccepts.readable, haccepts.writable⟩
    rw [hrefused]
    constructor
    · rintro ⟨-, hret, -⟩
      cases hret
    · rintro ⟨hr, hw, -⟩
      exact absurd ⟨hr, hw⟩ hopen

/-- The encoder and then the decoder, on any disk: both exit with 0 and the output holds the
    bytes of the input just when the files can be opened, the input is not empty, the encoded
    file is not the output, and it is not the input either, except that the one byte `p₀`
    survives that. Whatever happens, no other file changes. -/
theorem pack_unpack_iff :
    (∀ xs, d.files input = some xs →
      (Returns (packUnpack p₀ d name name' input packed output) output xs ↔
        d.Accepts 1 input packed xs ∧ d.readable packed = true ∧ d.writable output = true ∧
          packed ≠ output ∧ (input = packed → xs = [p₀]))) ∧
    ∀ other, other ≠ packed → other ≠ output →
      (packUnpack p₀ d name name' input packed output).2.2.files other = d.files other := by
  refine ⟨fun xs hfile => ?_, fun other hp ho => ?_⟩
  · by_cases h : d.Accepts 1 input packed xs
    · rw [returns_iff h]
      exact ⟨fun hr => ⟨h, hr⟩, And.right⟩
    · have hrefused : encoder_main p₀ d [name, input, packed] = (1, d) :=
        recode_refused hfile h
      constructor
      · rintro ⟨hret, -⟩
        unfold packUnpack at hret
        rw [hrefused] at hret
        cases hret
      · rintro ⟨haccepts, -⟩
        exact absurd haccepts h
  · have hpack : (encoder_main p₀ d [name, input, packed]).2.files other = d.files other :=
      recode_frame hp
    have hunpack : (decoder_main (encoder_main p₀ d [name, input, packed]).2
        [name', packed, output]).2.files other =
        (encoder_main p₀ d [name, input, packed]).2.files other := recode_frame ho
    exact hunpack.trans hpack

/-- Three files of a disk on which everything can be opened. -/
theorem pack_unpack_three :
    Returns (packUnpack 0 (⟨fun n => if n = 2 then some [7, 7, 9] else none, fun _ => true,
      fun _ => true⟩ : Disk Nat) 0 1 2 3 4) 4 [7, 7, 9] :=
  (pack_unpack_iff.1 _ rfl).mpr ⟨⟨rfl, rfl, by decide, rfl⟩, rfl, rfl, by decide, by decide⟩

end

end KernelBasecamp.Rle
