/-
  The run-length coder end to end: `decode` undoes `encode`, and `encode` undoes `decode`
  exactly on the canonical streams.

  A canonical stream is a non-empty sequence of (count, byte) pairs with counts in 1..255 in
  which a pair followed by one of the same byte has count 255. Everything here is about files
  on a device with space (`OutFile.empty`), and holds for every value `p₀` of the encoder's
  uninitialised variable.
-/
import KernelBasecamp.Rle.Codec

namespace KernelBasecamp.Rle

open Lib.RunLength

/-- The bytes `encode` writes for the file `xs`. -/
def encoded (p₀ : UInt8) (xs : List UInt8) : List UInt8 :=
  (encode p₀ xs OutFile.empty).2.bytes

/-- The bytes `decode` writes for the file `ys`. -/
def decoded (ys : List UInt8) : List UInt8 :=
  (decode ys OutFile.empty).2.bytes

theorem encoded_of_ne_nil (p₀ : UInt8) {xs : List UInt8} (h : xs ≠ []) :
    encoded p₀ xs = wire (pack 255 xs) := by
  obtain ⟨p, inp, rfl⟩ := List.exists_cons_of_ne_nil h
  rw [encoded, encode_cons, OutFile.empty_put_bytes]

theorem decoded_eq (ys : List UInt8) : decoded ys = expand (unwire ys) := by
  rw [decoded, decode_eq, OutFile.empty_put_bytes]

/-- `decode` accepts the wire form of any token list with 8-bit counts. -/
theorem decode_wire {ts : List (Nat × UInt8)} (h : ∀ t ∈ ts, t.1 ≤ 255) :
    decode (wire ts) OutFile.empty = (0, OutFile.empty.put (expand ts)) := by
  have heven : (wire ts).length % 2 = 0 := by rw [length_wire]; omega
  rw [decode_eq, unwire_wire h, if_pos heven]

theorem decoded_wire {ts : List (Nat × UInt8)} (h : ∀ t ∈ ts, t.1 ≤ 255) :
    decoded (wire ts) = expand ts := by
  rw [decoded_eq, unwire_wire h]

/-! ## Round trip -/

/-- Decoding what `encode` wrote for a non-empty file returns 0 and writes that file. -/
theorem decode_encode (p₀ : UInt8) (xs : List UInt8) (h : xs ≠ []) :
    decode (encode p₀ xs OutFile.empty).2.bytes OutFile.empty = (0, ⟨xs, none⟩) := by
  have hbytes : (encode p₀ xs OutFile.empty).2.bytes = wire (pack 255 xs) :=
    encoded_of_ne_nil p₀ h
  rw [hbytes, decode_wire (canonical_pack (by decide) xs).le, expand_pack, OutFile.empty,
    OutFile.put_of_room_none, List.nil_append]

theorem decode_encode_run :
    [7, 7, 9] ≠ ([] : List UInt8) ∧
      decode (encode 0 [7, 7, 9] OutFile.empty).2.bytes OutFile.empty = (0, ⟨[7, 7, 9], none⟩) :=
  ⟨by decide, decode_encode 0 [7, 7, 9] (by decide)⟩

/-! ## The image of the encoder -/

/-- A non-empty sequence of (count, byte) pairs with counts in 1..255 in which two adjacent
    pairs of the same byte start with a full one. -/
def CanonicalStream (ys : List UInt8) : Prop :=
  ∃ ts : List (Nat × UInt8), ts ≠ [] ∧ Canonical 255 ts ∧ ys = wire ts

theorem canonicalStream_encoded (p₀ : UInt8) (xs : List UInt8) :
    CanonicalStream (encoded p₀ xs) := by
  cases xs with
  | nil => exact ⟨pack 255 [p₀], packFrom_ne_nil _ _ _ _, canonical_pack (by decide) _, rfl⟩
  | cons p inp =>
      exact ⟨pack 255 (p :: inp), packFrom_ne_nil _ _ _ _, canonical_pack (by decide) _,
        encoded_of_ne_nil p₀ (List.cons_ne_nil p inp)⟩

theorem expand_ne_nil {M : Nat} {ts : List (Nat × UInt8)} (h : Canonical M ts)
    (hne : ts ≠ []) : expand ts ≠ [] := by
  obtain ⟨t, us, rfl⟩ := List.exists_cons_of_ne_nil hne
  intro hnil
  have := head?_expand h
  rw [hnil] at this
  cases this

/-- On a canonical stream `decode` returns 0, writes a non-empty file, and `encode` gives the
    stream back. -/
theorem encode_decode_of_canonical (p₀ : UInt8) {ys : List UInt8} (h : CanonicalStream ys) :
    (decode ys OutFile.empty).1 = 0 ∧ decoded ys ≠ [] ∧ encoded p₀ (decoded ys) = ys := by
  obtain ⟨ts, hne, hcan, rfl⟩ := h
  have hdec : decoded (wire ts) = expand ts := decoded_wire hcan.le
  have hfile : expand ts ≠ [] := expand_ne_nil hcan hne
  refine ⟨by rw [decode_wire hcan.le], by rwa [hdec], ?_⟩
  rw [hdec, encoded_of_ne_nil p₀ hfile, pack_expand hcan]

/-- The outputs of `encode` on non-empty files are exactly the canonical streams; `encode`
    gives a stream back from its decoded data exactly when the stream is canonical, and then
    it is the only stream with these data that is given back. -/
theorem encode_image (p₀ : UInt8) (ys : List UInt8) :
    ((∃ xs, xs ≠ [] ∧ encoded p₀ xs = ys) ↔ CanonicalStream ys) ∧
    (encoded p₀ (decoded ys) = ys ↔ CanonicalStream ys) ∧
    (CanonicalStream ys → (decode ys OutFile.empty).1 = 0 ∧
      ∀ zs, decoded zs = decoded ys → encoded p₀ (decoded zs) = zs → zs = ys) := by
  refine ⟨⟨?_, ?_⟩, ⟨?_, ?_⟩, ?_⟩
  · rintro ⟨xs, _, rfl⟩
    exact canonicalStream_encoded p₀ xs
  · intro h
    obtain ⟨_, hne, hback⟩ := encode_decode_of_canonical p₀ h
    exact ⟨decoded ys, hne, hback⟩
  · intro h
    rw [← h]
    exact canonicalStream_encoded p₀ _
  · intro h
    exact (encode_decode_of_canonical p₀ h).2.2
  · intro h
    obtain ⟨hret, _, hback⟩ := encode_decode_of_canonical p₀ h
    refine ⟨hret, fun zs hdata hz => ?_⟩
    rw [← hz, hdata, hback]

example : decoded (encoded 0 [1, 1, 1, 2]) = [1, 1, 1, 2] := by decide +kernel

end KernelBasecamp.Rle
