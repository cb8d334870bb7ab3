/-
  The run-length coder on any input and any output.

  * `encode_shortest`: no stream that `decode` accepts for the same data is shorter than what
    `encode` writes, which has two bytes for each 255 bytes begun of a maximal run.
  * `decode_stream`: what `decode` makes of an arbitrary stream, and of two in a row.
  * `reports_iff`: neither function looks at what `fwrite` returns, so a device that fills up
    goes unnoticed (`full_disk`). The status is right exactly when there is room for
    everything, or when `decode` returns 1 for another reason.
-/
import Mathlib
import KernelBasecamp.Rle.RoundTrip

namespace KernelBasecamp.Rle

open Lib.RunLength

/-! ## The pairs of a stream -/

theorem unwire_le {ys : List UInt8} : ∀ t ∈ unwire ys, t.1 ≤ 255 := by
  fun_induction unwire ys with
  | case1 count c inp ih =>
      intro t ht
      rcases List.mem_cons.mp ht with rfl | ht
      · exact Nat.le_of_lt_succ count.toNat_lt
      · exact ih t ht
  | case2 ys h => exact fun t ht => absurd ht List.not_mem_nil

/-- What is left when there is no complete pair. -/
theorem nil_or_singleton {ys : List UInt8} (h : ∀ count c inp, ys = count :: c :: inp → False) :
    ys = [] ∨ ∃ c, ys = [c] := by
  match ys with
  | [] => exact .inl rfl
  | [c] => exact .inr ⟨c, rfl⟩
  | count :: c :: inp => exact absurd rfl (h count c inp)

theorem length_unwire (ys : List UInt8) : (unwire ys).length = ys.length / 2 := by
  fun_induction unwire ys with
  | case1 count c inp ih =>
      rw [List.length_cons, ih, List.length_cons, List.length_cons]
      omega
  | case2 ys h =>
      rcases nil_or_singleton h with rfl | ⟨c, rfl⟩
      · rfl
      · simp

theorem unwire_append {as : List UInt8} (h : as.length % 2 = 0) (bs : List UInt8) :
    unwire (as ++ bs) = unwire as ++ unwire bs := by
  fun_induction unwire as with
  | case1 count c inp ih =>
      rw [List.length_cons, List.length_cons] at h
      exact congrArg _ (ih (by omega))
  | case2 as hpair =>
      rcases nil_or_singleton hpair with rfl | ⟨c, rfl⟩
      · rfl
      · exact absurd h (by simp)

/-- The pairs in order, read off by their positions. -/
theorem expand_unwire (ys : List UInt8) :
    expand (unwire ys) = (List.range (ys.length / 2)).flatMap fun i =>
      List.replicate (ys.getD (2 * i) 0).toNat (ys.getD (2 * i + 1) 0) := by
  fun_induction unwire ys with
  | case1 count c inp ih =>
      have hlen : (count :: c :: inp).length / 2 = inp.length / 2 + 1 := by
        rw [List.length_cons, List.length_cons]
        omega
      rw [expand_cons, ih, hlen, List.range_succ_eq_map, List.flatMap_cons, List.flatMap_map]
      rfl
  | case2 ys h =>
      rcases nil_or_singleton h with rfl | ⟨c, rfl⟩
      · rfl
      · simp

/-! ## The encoding is shortest -/

theorem length_encoded (p₀ : UInt8) {xs : List UInt8} (h : xs ≠ []) :
    (encoded p₀ xs).length = 2 * tokens 255 xs := by
  rw [encoded_of_ne_nil p₀ h, length_wire, pack_length_eq (by decide)]

theorem encoded_length_le (p₀ : UInt8) {xs ys : List UInt8} (h : xs ≠ [])
    (hys : decode ys OutFile.empty = (0, ⟨xs, none⟩)) : (encoded p₀ xs).length ≤ ys.length := by
  have hdata : expand (unwire ys) = xs := by
    rw [← decoded_eq, decoded, hys]
  have hle : ∀ t ∈ unwire ys, t.1 ≤ 255 := unwire_le
  have hpack := pack_length_le hle
  rw [hdata, length_unwire] at hpack
  rw [encoded_of_ne_nil p₀ h, length_wire]
  omega

/-- One pair for each byte is a stream, too. -/
theorem decode_singles (xs : List UInt8) :
    decode (wire (xs.map fun x => (1, x))) OutFile.empty = (0, ⟨xs, none⟩) := by
  have hexpand : expand (xs.map fun x => (1, x)) = xs := by
    induction xs with
    | nil => rfl
    | cons x xs ih => exact congrArg (x :: ·) ih
  rw [decode_wire fun t ht => ?_, hexpand, OutFile.empty, OutFile.put_of_room_none,
    List.nil_append]
  obtain ⟨x, _, rfl⟩ := List.mem_map.mp ht
  exact Nat.le_add_left 1 254

/-- What `encode` writes for a non-empty file is not longer than any stream that `decode`
    accepts for it, nor than two bytes for each byte of the file; it has two bytes for each 255
    bytes begun of a maximal run. -/
theorem encode_shortest (p₀ : UInt8) {xs : List UInt8} (h : xs ≠ []) :
    (∀ ys, decode ys OutFile.empty = (0, ⟨xs, none⟩) → (encoded p₀ xs).length ≤ ys.length) ∧
    (encoded p₀ xs).length ≤ 2 * xs.length ∧
    (encoded p₀ xs).length = 2 * ((runs xs).map fun r => (r.length + 254) / 255).sum := by
  refine ⟨fun ys => encoded_length_le p₀ h, ?_, length_encoded p₀ h⟩
  have hsingles := encoded_length_le p₀ h (decode_singles xs)
  rwa [length_wire, List.length_map] at hsingles

theorem encode_shortest_run :
    (encoded 0 [7, 7, 7, 9]).length ≤ 2 * 4 ∧ (encoded 0 [7, 7, 7, 9]).length ≤
      ([2, 7, 0, 8, 1, 7, 1, 9] : List UInt8).length := by
  have h := encode_shortest 0 (show ([7, 7, 7, 9] : List UInt8) ≠ [] by decide)
  exact ⟨h.2.1, h.1 _ (by decide +kernel)⟩

/-! ## The decoder on any stream -/

/-- `decode` returns 0 exactly on streams of even length; it writes the expansions of the
    complete leading pairs, whatever it returns; and behind an even number of bytes it goes on
    as if it had just begun. -/
theorem decode_stream (ys : List UInt8) :
    ((decode ys OutFile.empty).1 = 0 ↔ ys.length % 2 = 0) ∧
    decoded ys = ((List.range (ys.length / 2)).flatMap fun i =>
      List.replicate (ys.getD (2 * i) 0).toNat (ys.getD (2 * i + 1) 0)) ∧
    ∀ as, as.length % 2 = 0 → decoded (as ++ ys) = decoded as ++ decoded ys ∧
      (decode (as ++ ys) OutFile.empty).1 = (decode ys OutFile.empty).1 := by
  refine ⟨?_, by rw [decoded_eq, expand_unwire], fun as has => ⟨?_, ?_⟩⟩
  · rw [decode_eq]
    dsimp only
    split <;> simp [*]
  · rw [decoded_eq, decoded_eq, decoded_eq, unwire_append has, expand, List.flatMap_append]
    rfl
  · have hpar : (as ++ ys).length % 2 = ys.length % 2 := by
      rw [List.length_append]
      omega
    rw [decode_eq, decode_eq, hpar]

/-- A cut-off stream behind a pair that stands for nothing. -/
theorem decode_stream_cut :
    decoded ([0, 8] ++ [2, 7, 1]) = decoded [0, 8] ++ decoded [2, 7, 1] ∧
      decoded [2, 7, 1] = [7, 7] ∧ (decode [2, 7, 1] OutFile.empty).1 ≠ 0 := by
  have h := decode_stream [2, 7, 1]
  exact ⟨(h.2.2 [0, 8] (by decide)).1, h.2.1, fun hzero => absurd (h.1.mp hzero) (by decide)⟩

/-! ## A device that fills up -/

/-- A stream with room for `k` bytes keeps the first `k` of those written. -/
theorem OutFile.put_room (as bs : List UInt8) (k : Nat) :
    (⟨as, some k⟩ : OutFile).put bs = ⟨as ++ bs.take k, some (k - bs.length)⟩ := by
  induction bs generalizing as k with
  | nil => simp
  | cons b bs ih =>
      rw [OutFile.put_cons]
      cases k with
      | zero =>
          have hw : (fwrite b ⟨as, some 0⟩).2 = ⟨as, some 0⟩ := rfl
          rw [hw, ih]
          simp
      | succ k =>
          have hw : (fwrite b ⟨as, some (k + 1)⟩).2 = ⟨as ++ [b], some k⟩ := rfl
          rw [hw, ih, List.take_succ_cons, List.append_assoc, List.length_cons,
            Nat.add_sub_add_right]
          rfl

theorem put_complete_iff (bs : List UInt8) (k : Nat) :
    ((⟨[], some k⟩ : OutFile).put bs).bytes = bs ↔ bs.length ≤ k := by
  rw [OutFile.put_room, List.nil_append]
  exact List.take_eq_self_iff bs

/-- The pairs that `encode` writes; it writes one for an empty file, too. -/
def pairCount (xs : List UInt8) : Nat := if xs = [] then 1 else tokens 255 xs

/-- The bytes that the complete pairs of a stream stand for. -/
def declared (ys : List UInt8) : Nat := ((unwire ys).map Prod.fst).sum

theorem length_expand (ts : List (Nat × UInt8)) : (expand ts).length = (ts.map Prod.fst).sum := by
  induction ts with
  | nil => rfl
  | cons t ts ih =>
      obtain ⟨n, a⟩ := t
      rw [expand_cons, List.length_append, List.length_replicate, ih]
      rfl

/-- `encode` returns 0 and writes the same bytes to any stream. -/
theorem encode_put (p₀ : UInt8) (xs : List UInt8) (out : OutFile) :
    encode p₀ xs out = (0, out.put (encoded p₀ xs)) ∧
      (encoded p₀ xs).length = 2 * pairCount xs := by
  cases xs with
  | nil =>
      have hempty : encoded p₀ [] = wire [(1, p₀)] := by
        rw [encoded, encode, encodeLoop_eq, OutFile.empty_put_bytes]
        rfl
      rw [hempty, encode, encodeLoop_eq]
      exact ⟨rfl, rfl⟩
  | cons x xs =>
      have hlen := length_encoded p₀ (List.cons_ne_nil x xs)
      rw [encoded_of_ne_nil p₀ (List.cons_ne_nil x xs)] at hlen ⊢
      refine ⟨encode_cons p₀ x xs out, hlen.trans ?_⟩
      rw [pairCount, if_neg (List.cons_ne_nil x xs)]

/-- On a device with room for `k` bytes, a 0 from `encode` means that all was written exactly
    when the pairs of the file fit, and a 0 from `decode` exactly when the decoded bytes fit or
    there is no 0, the stream being cut off. -/
theorem reports_iff (k : Nat) :
    (∀ p₀ xs, ((encode p₀ xs ⟨[], some k⟩).1 = 0 →
      (encode p₀ xs ⟨[], some k⟩).2.bytes = encoded p₀ xs) ↔ 2 * pairCount xs ≤ k) ∧
    (∀ ys, ((decode ys ⟨[], some k⟩).1 = 0 → (decode ys ⟨[], some k⟩).2.bytes = decoded ys) ↔
      ys.length % 2 = 1 ∨ declared ys ≤ k) := by
  refine ⟨fun p₀ xs => ?_, fun ys => ?_⟩
  · obtain ⟨hput, hlen⟩ := encode_put p₀ xs ⟨[], some k⟩
    rw [hput, ← hlen, put_complete_iff]
    exact ⟨fun h => h rfl, fun h _ => h⟩
  · rw [decode_eq, decoded_eq, put_complete_iff, length_expand]
    change ((if ys.length % 2 = 0 then (0 : Int) else 1) = 0 → declared ys ≤ k) ↔ _
    rcases Nat.mod_two_eq_zero_or_one ys.length with h | h
    · simp [h]
    · simp [h]

/-- `encode` of one byte onto a full device returns 0 and leaves an empty file; so does
    `decode` of three bytes where there is room for one. -/
theorem full_disk :
    ¬ ((encode 0 [97] ⟨[], some 0⟩).1 = 0 →
      (encode 0 [97] ⟨[], some 0⟩).2.bytes = encoded 0 [97]) ∧
    ¬ ((decode [3, 97] ⟨[], some 1⟩).1 = 0 →
      (decode [3, 97] ⟨[], some 1⟩).2.bytes = decoded [3, 97]) := by
  decide +kernel

end KernelBasecamp.Rle
