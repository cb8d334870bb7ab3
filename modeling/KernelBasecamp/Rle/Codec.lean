/-
  The run-length coder of task03: `encode` (encoder.c) and `decode` (decoder.c), translated
  loop by loop.

  Streams. An input stream is the list of bytes it still holds; reading one item at its end
  returns 0 and stores nothing. An output stream keeps the bytes written and the number of
  bytes it still accepts (`room`, `none` for no limit), so a full disk is a value of the model:
  `fwrite` then returns 0, a return value that neither function looks at. `char` and
  `unsigned char` are both `UInt8`: the code only compares characters for equality.

  Proved: `encode` writes the wire form of the greedy run-length packing with counts up to
  255 (`encode_cons`), and `decode` writes the expansion of the complete leading pairs
  (`decode_eq`), into any stream.
-/
import KernelBasecamp.Lib.RunLength

namespace KernelBasecamp.Rle

open Lib.RunLength

/-! ## Output streams -/

/-- An output stream: the bytes written, and how many more it accepts (`none`: no limit). -/
structure OutFile where
  bytes : List UInt8
  room : Option Nat
  deriving DecidableEq, Repr

/-- A freshly opened output file on a device with space. -/
def OutFile.empty : OutFile := ⟨[], none⟩

/-- `fwrite(&b, 1, 1, out)`: the number of items written and the stream after the call. -/
def fwrite (b : UInt8) (out : OutFile) : Nat × OutFile :=
  match out.room with
  | none => (1, { out with bytes := out.bytes ++ [b] })
  | some 0 => (0, out)
  | some (k + 1) => (1, ⟨out.bytes ++ [b], some k⟩)

/-- The stream after one `fwrite` per byte of `bs`. -/
def OutFile.put (out : OutFile) (bs : List UInt8) : OutFile :=
  bs.foldl (fun o b => (fwrite b o).2) out

@[simp] theorem OutFile.put_nil (out : OutFile) : out.put [] = out := rfl

@[simp] theorem OutFile.put_cons (out : OutFile) (b : UInt8) (bs : List UInt8) :
    out.put (b :: bs) = (fwrite b out).2.put bs := rfl

theorem OutFile.put_append (out : OutFile) (as bs : List UInt8) :
    out.put (as ++ bs) = (out.put as).put bs := by
  simp [OutFile.put, List.foldl_append]

/-- A stream without limit takes every byte. -/
theorem OutFile.put_of_room_none (as bs : List UInt8) :
    (⟨as, none⟩ : OutFile).put bs = ⟨as ++ bs, none⟩ := by
  induction bs generalizing as with
  | nil => simp
  | cons b bs ih =>
      rw [OutFile.put_cons]
      have hw : (fwrite b ⟨as, none⟩).2 = ⟨as ++ [b], none⟩ := rfl
      rw [hw, ih, List.append_assoc]
      rfl

@[simp] theorem OutFile.empty_put_bytes (bs : List UInt8) :
    (OutFile.empty.put bs).bytes = bs := by
  rw [OutFile.empty, OutFile.put_of_room_none, List.nil_append]

/-! ## encoder.c -/

def MAX_COUNT : UInt8 := 0xFF

/-- The loop of `encode` with the pending byte `p` and its `count`, and the two writes after
    the loop. -/
def encodeLoop (count p : UInt8) (out : OutFile) : List UInt8 → OutFile
  | [] => (fwrite p (fwrite count out).2).2
  | c :: inp =>
      if c = p ∧ count < MAX_COUNT then encodeLoop (count + 1) p out inp
      else encodeLoop 1 c (fwrite p (fwrite count out).2).2 inp

/-- `encode(in, out)`. When the first read finds nothing, `p` keeps the indeterminate value
    `p₀` of the uninitialised variable. -/
def encode (p₀ : UInt8) (inp : List UInt8) (out : OutFile) : Int × OutFile :=
  match inp with
  | [] => (0, encodeLoop 1 p₀ out [])
  | p :: inp => (0, encodeLoop 1 p out inp)

/-! ## decoder.c -/

/-- `while (count--) fwrite(&c, 1, 1, out);` with the 8-bit counter it leaves behind. -/
def writeCopies (c count : UInt8) (out : OutFile) : UInt8 × OutFile :=
  if count = 0 then (count - 1, out) else writeCopies c (count - 1) (fwrite c out).2
termination_by count.toNat
decreasing_by
  rename_i h
  have hpos : 1 ≤ count.toNat := by
    have : count.toNat ≠ 0 := fun h0 => h (UInt8.toNat_inj.mp h0)
    omega
  have hle : (1 : UInt8) ≤ count := UInt8.le_iff_toNat_le.mpr hpos
  rw [UInt8.toNat_sub_of_le _ _ hle]
  show count.toNat - 1 < count.toNat
  omega

/-- `decode(in, out)`: the return value and the output stream. -/
def decode : List UInt8 → OutFile → Int × OutFile
  | [], out => (0, out)
  | [_], out => (1, out)
  | count :: c :: inp, out => decode inp (writeCopies c count out).2

/-! ## The wire form of a token list -/

/-- The bytes of a token list: one count byte and one data byte a token. -/
def wire (ts : List (Nat × UInt8)) : List UInt8 :=
  ts.flatMap fun t => [UInt8.ofNat t.1, t.2]

/-- The complete (count, byte) pairs at the front of a stream. -/
def unwire : List UInt8 → List (Nat × UInt8)
  | count :: c :: inp => (count.toNat, c) :: unwire inp
  | _ => []

@[simp] theorem wire_nil : wire [] = [] := rfl

@[simp] theorem wire_cons (n : Nat) (c : UInt8) (ts : List (Nat × UInt8)) :
    wire ((n, c) :: ts) = UInt8.ofNat n :: c :: wire ts := rfl

theorem unwire_wire {ts : List (Nat × UInt8)} (h : ∀ t ∈ ts, t.1 ≤ 255) :
    unwire (wire ts) = ts := by
  induction ts with
  | nil => rfl
  | cons t ts ih =>
      obtain ⟨n, c⟩ := t
      have hn : n ≤ 255 := h (n, c) (by simp)
      have hcount : (UInt8.ofNat n).toNat = n :=
        UInt8.toNat_ofNat_of_lt' (Nat.lt_succ_of_le hn)
      rw [wire_cons, unwire, hcount, ih fun t ht => h t (List.mem_cons_of_mem _ ht)]

theorem length_wire (ts : List (Nat × UInt8)) : (wire ts).length = 2 * ts.length := by
  induction ts with
  | nil => rfl
  | cons t ts ih =>
      obtain ⟨n, c⟩ := t
      simp only [wire_cons, List.length_cons, ih]
      omega

/-! ## What the two functions write -/

theorem encodeLoop_eq (count p : UInt8) (out : OutFile) (inp : List UInt8) :
    encodeLoop count p out inp = out.put (wire (packFrom 255 count.toNat p inp)) := by
  induction inp generalizing count p out with
  | nil => simp [encodeLoop, packFrom]
  | cons c inp ih =>
      have hfull : count < MAX_COUNT ↔ count.toNat < 255 := UInt8.lt_iff_toNat_lt
      rw [encodeLoop, packFrom]
      by_cases h : c = p ∧ count.toNat < 255
      · have hsucc : (count + 1).toNat = count.toNat + 1 := by
          rw [UInt8.toNat_add]
          exact Nat.mod_eq_of_lt (by have := h.2; show count.toNat + 1 < 256; omega)
        rw [if_pos (by rwa [hfull]), if_pos h, ih, hsucc]
      · rw [if_neg (by rwa [hfull]), if_neg h, ih, wire_cons, UInt8.ofNat_toNat]
        simp only [OutFile.put_cons]
        rfl

/-- On a non-empty file `encode` returns 0 and writes the packing with counts up to 255. -/
theorem encode_cons (p₀ p : UInt8) (inp : List UInt8) (out : OutFile) :
    encode p₀ (p :: inp) out = (0, out.put (wire (pack 255 (p :: inp)))) := by
  rw [encode, encodeLoop_eq]
  rfl

theorem writeCopies_eq (c count : UInt8) (out : OutFile) :
    (writeCopies c count out).2 = out.put (List.replicate count.toNat c) := by
  fun_induction writeCopies c count out with
  | case1 out => rfl
  | case2 count out h ih =>
      have hpos : 1 ≤ count.toNat := by
        have : count.toNat ≠ 0 := fun h0 => h (UInt8.toNat_inj.mp h0)
        omega
      have hpred : (count - 1).toNat = count.toNat - 1 :=
        UInt8.toNat_sub_of_le _ _ (UInt8.le_iff_toNat_le.mpr hpos)
      obtain ⟨k, hk⟩ : ∃ k, count.toNat = k + 1 := ⟨count.toNat - 1, by omega⟩
      rw [ih, hpred, hk, List.replicate_succ, OutFile.put_cons, Nat.add_sub_cancel]

/-- `decode` writes the expansion of the complete leading pairs, and returns 0 exactly when
    nothing is left over. -/
theorem decode_eq (inp : List UInt8) (out : OutFile) :
    decode inp out =
      (if inp.length % 2 = 0 then 0 else 1, out.put (expand (unwire inp))) := by
  fun_induction decode inp out with
  | case1 out => simp [unwire]
  | case2 b out => simp [unwire]
  | case3 count c inp out ih =>
      have hpar : (count :: c :: inp).length % 2 = inp.length % 2 := by
        simp only [List.length_cons]
        omega
      rw [ih, writeCopies_eq, unwire, expand_cons, OutFile.put_append, hpar]

end KernelBasecamp.Rle
