/-
  `reverse_interval` on any interval `[a, b]` of a buffer.

  `reverse_interval_spec` is about a memory that is already cut in three; here the cuts are at
  `a` and behind `b`. On ASCII the byte in the middle of an odd length, which goes through
  `toupper` twice, is no exception. That no other position is touched is said by a run on a
  memory that consists of the interval alone, where any other position is a fault.
-/
import KernelBasecamp.Procfs.Sentences

namespace KernelBasecamp.Procfs

open Lib Lib.CMem

/-- The bytes at the positions `a` to `b`. -/
def interval (m : List UInt8) (a b : Nat) : List UInt8 := (m.drop a).take (b + 1 - a)

variable {m : List UInt8} {a b : Nat}

theorem interval_length (hab : a ≤ b) (hb : b < m.length) :
    (interval m a b).length = b + 1 - a := by
  unfold interval
  rw [List.length_take, List.length_drop]
  omega

theorem interval_split (hab : a ≤ b) : m.take a ++ (interval m a b ++ m.drop (b + 1)) = m := by
  have hdrop : m.drop (b + 1) = (m.drop a).drop (b + 1 - a) := by
    rw [List.drop_drop]
    congr 1
    omega
  unfold interval
  rw [hdrop, List.take_append_drop, List.take_append_drop]

/-- What stands between `a` bytes and the rest is the interval. -/
theorem interval_append {pre mid : List UInt8} (hpre : pre.length = a)
    (hmid : mid.length = b + 1 - a) (post : List UInt8) :
    interval (pre ++ (mid ++ post)) a b = mid := by
  unfold interval
  rw [List.drop_left' hpre, List.take_left' hmid]

theorem raised_ascii {make_upper : Bool} {mid : List UInt8}
    (hascii : make_upper = true → ∀ c ∈ mid, c < 128) :
    raised make_upper mid = mid.map (cased make_upper) := by
  cases make_upper with
  | false =>
      rw [raised_false]
      exact (List.map_id mid).symm
  | true =>
      exact eq_map_of_forall₂ (raised_forall₂ mid) fun c hc _ hr => hr.eq_toupper (hascii rfl c hc)

theorem reverse_interval_eq (make_upper : Bool) (hab : a ≤ b) (hb : b < m.length)
    (hm : m.length < 2 ^ 64) (hascii : make_upper = true → ∀ c ∈ interval m a b, c < 128) :
    reverse_interval m a b make_upper =
      some (m.take a ++ (((interval m a b).map (cased make_upper)).reverse ++ m.drop (b + 1))) := by
  have hlen := interval_length hab hb
  have hne : interval m a b ≠ [] := List.ne_nil_of_length_pos (by omega)
  have hpre : (m.take a).length = a := List.length_take_of_le (by omega)
  have h := reverse_interval_spec make_upper (m.take a) (interval m a b) (m.drop (b + 1)) hne
    (by omega) (a := a) (b := b) (by omega) (by omega)
  rwa [interval_split hab, raised_ascii hascii] at h

/-- Reversing in place: the bytes from `a` to `b` come out in reverse order, upper-cased if that
    is asked for, the others stay, no position outside of the interval is touched, and a second
    time without `make_upper` restores the buffer. -/
theorem reverse_interval_in_place (make_upper : Bool) (hab : a ≤ b) (hb : b < m.length)
    (hm : m.length < 2 ^ 64) (hascii : make_upper = true → ∀ c ∈ interval m a b, c < 128) :
    ∃ m', reverse_interval m a b make_upper = some m' ∧
      m' = m.take a ++
        (((interval m a b).map fun c => if make_upper then toupper c else c).reverse ++
          m.drop (b + 1)) ∧
      reverse_interval (interval m a b) 0 (b - a : Nat) make_upper = some (interval m' a b) ∧
      (make_upper = false → reverse_interval m' a b false = some m) := by
  have hlen := interval_length hab hb
  have hpre : (m.take a).length = a := List.length_take_of_le (by omega)
  have hrev : (((interval m a b).map (cased make_upper)).reverse).length = b + 1 - a := by
    rw [List.length_reverse, List.length_map, hlen]
  refine ⟨_, reverse_interval_eq make_upper hab hb hm hascii, rfl, ?_, ?_⟩
  · -- the whole of this memory is the interval
    have hwhole : interval (interval m a b) 0 (b - a) = interval m a b := by
      have h := interval_append List.length_nil
        (show (interval m a b).length = b - a + 1 - 0 by omega) ([] : List UInt8)
      rwa [List.nil_append, List.append_nil] at h
    have h := reverse_interval_eq make_upper (Nat.zero_le (b - a))
      (show b - a < (interval m a b).length by omega) (by omega) (by rwa [hwhole])
    rw [hwhole, List.take_zero, List.drop_of_length_le (by omega), List.nil_append,
      List.append_nil] at h
    rw [interval_append hpre hrev _]
    exact h
  · rintro rfl
    have hmap : (interval m a b).map (cased false) = interval m a b := List.map_id _
    rw [hmap] at hrev ⊢
    have h := reverse_interval_spec false (m.take a) (interval m a b).reverse (m.drop (b + 1))
      (List.ne_nil_of_length_pos (by omega)) (by omega) (a := a) (b := b) (by omega) (by omega)
    rwa [raised_false, List.reverse_reverse, interval_split hab] at h

/-- The bytes `abc` between two others. -/
theorem reverse_interval_in_place_abc :
    ∃ m', reverse_interval [120, 97, 98, 99, 121] (1 : Nat) (3 : Nat) true = some m' ∧
      m' = [120, 67, 66, 65, 121] := by
  have hall : (interval [120, 97, 98, 99, 121] 1 3).all (· < 128) = true := by decide
  obtain ⟨m', hrun, hm', -⟩ := reverse_interval_in_place (m := [120, 97, 98, 99, 121]) (a := 1)
    (b := 3) true (by decide) (by decide) (by decide)
    fun _ c hc => of_decide_eq_true (List.all_eq_true.mp hall c hc)
  exact ⟨m', hrun, hm'⟩

end KernelBasecamp.Procfs
