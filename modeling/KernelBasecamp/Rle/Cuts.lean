/-
  Encoded files that have been cut.

  `encoded_cut`: the front of an encoded file decodes to a front of the data, a shorter one
  unless nothing has been cut off. The decoder reports a cut in the middle of a pair; a cut
  between two pairs leaves just the file that the encoder makes of the shorter data.
-/
import KernelBasecamp.Rle.RoundTrip

namespace KernelBasecamp.Rle

open Lib.RunLength

variable {ts : List (Nat × UInt8)}

/-- A cut keeps the pairs that are complete. -/
theorem unwire_take (h : ∀ t ∈ ts, t.1 ≤ 255) (k : Nat) :
    unwire ((wire ts).take k) = ts.take (k / 2) := by
  induction ts generalizing k with
  | nil => simp [unwire]
  | cons t ts ih =>
      obtain ⟨n, c⟩ := t
      have hn : n ≤ 255 := h (n, c) List.mem_cons_self
      cases k with
      | zero => rfl
      | succ k =>
          cases k with
          | zero => rfl
          | succ k =>
              have hcount : (UInt8.ofNat n).toNat = n := by
                rw [UInt8.toNat_ofNat']
                omega
              rw [wire_cons, List.take_succ_cons, List.take_succ_cons, unwire, hcount,
                ih (fun t ht => h t (List.mem_cons_of_mem _ ht)), Nat.add_assoc,
                Nat.add_div_right k (by decide), List.take_succ_cons]

/-- A cut between two pairs. -/
theorem wire_take (ts : List (Nat × UInt8)) (j : Nat) :
    (wire ts).take (2 * j) = wire (ts.take j) := by
  induction j generalizing ts with
  | zero => rfl
  | succ j ih =>
      cases ts with
      | nil => rfl
      | cons t ts =>
          rw [Nat.mul_succ, wire_cons, List.take_succ_cons, List.take_succ_cons, ih,
            List.take_succ_cons, wire_cons]

theorem expand_take_append (ts : List (Nat × UInt8)) (j : Nat) :
    expand (ts.take j) ++ expand (ts.drop j) = expand ts := by
  unfold expand
  rw [← List.flatMap_append, List.take_append_drop]

theorem canonical_take {M : Nat} (h : Canonical M ts) (j : Nat) : Canonical M (ts.take j) :=
  ⟨fun t ht => h.pos t (List.mem_of_mem_take ht), fun t ht => h.le t (List.mem_of_mem_take ht),
    h.full.take j⟩

/-- Pairs that are missing are missed. -/
theorem expand_drop_eq_nil (h : ∀ t ∈ ts, 1 ≤ t.1) {j : Nat} :
    expand (ts.drop j) = [] ↔ ts.length ≤ j := by
  rw [← List.drop_eq_nil_iff]
  constructor
  · intro hnil
    by_contra hne
    obtain ⟨t, us, ht⟩ := List.exists_cons_of_ne_nil hne
    have hone : 1 ≤ t.1 := h t (List.mem_of_mem_drop (ht ▸ List.mem_cons_self))
    rw [ht] at hnil
    have hzero := (List.append_eq_nil_iff.mp hnil).1
    rw [List.replicate_eq_nil_iff] at hzero
    omega
  · intro hnil
    rw [hnil]
    rfl

theorem encoded_cut (p₀ : UInt8) {xs : List UInt8} (hxs : xs ≠ []) (k : Nat) :
    decoded ((encoded p₀ xs).take k) <+: xs ∧
    (decoded ((encoded p₀ xs).take k) = xs ↔ (encoded p₀ xs).length ≤ k) ∧
    ((decode ((encoded p₀ xs).take k) OutFile.empty).1 = 0 ↔
      k % 2 = 0 ∨ (encoded p₀ xs).length ≤ k) ∧
    (k % 2 = 0 → 0 < k →
      encoded p₀ (decoded ((encoded p₀ xs).take k)) = (encoded p₀ xs).take k) := by
  have hcan : Canonical 255 (pack 255 xs) := canonical_pack (by decide) xs
  have hdec : decoded ((encoded p₀ xs).take k) = expand ((pack 255 xs).take (k / 2)) := by
    rw [encoded_of_ne_nil p₀ hxs, decoded_eq, unwire_take hcan.le]
  have happ := expand_take_append (pack 255 xs) (k / 2)
  rw [expand_pack] at happ
  have hlength : (encoded p₀ xs).length = 2 * (pack 255 xs).length := by
    rw [encoded_of_ne_nil p₀ hxs, length_wire]
  refine ⟨⟨_, by rw [hdec]; exact happ⟩, ?_, ?_, fun heven hpos => ?_⟩
  · have hnil := expand_drop_eq_nil hcan.pos (j := k / 2)
    rw [hdec, hlength]
    constructor
    · intro heq
      rw [heq] at happ
      have hlen := hnil.mp (List.append_right_eq_self.mp happ)
      omega
    · intro hle
      rwa [hnil.mpr (by omega), List.append_nil] at happ
  · rw [decode_eq, List.length_take, hlength]
    dsimp only
    split <;> omega
  · have hcut : (encoded p₀ xs).take k = wire ((pack 255 xs).take (k / 2)) := by
      rw [encoded_of_ne_nil p₀ hxs, ← wire_take, Nat.mul_div_cancel' (Nat.dvd_of_mod_eq_zero heven)]
    have hne : (pack 255 xs).take (k / 2) ≠ [] := by
      intro hnil
      rcases List.take_eq_nil_iff.mp hnil with hzero | hpack
      · omega
      · rw [hpack, List.take_nil, List.drop_nil] at happ
        exact hxs happ.symm
    exact (encode_decode_of_canonical p₀ ⟨_, hne, canonical_take hcan _, hcut⟩).2.2

/-- Three pairs, cut behind the second one. -/
theorem encoded_cut_two : decoded ((encoded 0 [7, 7, 9, 5]).take 4) <+: [7, 7, 9, 5] ∧
    encoded 0 (decoded ((encoded 0 [7, 7, 9, 5]).take 4)) = (encoded 0 [7, 7, 9, 5]).take 4 := by
  obtain ⟨hfront, -, -, hshorter⟩ := encoded_cut 0 (show [7, 7, 9, 5] ≠ [] by decide) 4
  exact ⟨hfront, hshorter rfl (by decide)⟩

end KernelBasecamp.Rle
