/-
  C memory as a list of bytes: one list is a stretch of mapped memory, a pointer into it is an
  offset, and touching anything outside it is a fault (`none`).

  The string functions take the bytes from the pointer to the end of the memory (`m.drop p`).
  `copy_from_user` and `copy_to_user` follow the kernel's contract: they copy a prefix, report
  the number of bytes left uncopied (`left`), and `copy_from_user` fills the rest of its
  destination with zeros. `size_t` values are natural numbers below `2 ^ 64`; `size_add`
  and `size_sub` wrap.
-/
import Mathlib

namespace KernelBasecamp.Lib.CMem

/-! ## Unsigned arithmetic -/

/-- `a + b` on `size_t`. -/
@[irreducible] def size_add (a b : Nat) : Nat := (a + b) % 2 ^ 64

/-- `a - b` on `size_t`. -/
@[irreducible] def size_sub (a b : Nat) : Nat := (a + 2 ^ 64 - b) % 2 ^ 64

theorem size_add_of_lt {a b : Nat} (h : a + b < 2 ^ 64) : size_add a b = a + b := by
  unfold size_add
  exact Nat.mod_eq_of_lt h

theorem size_sub_of_le {a b : Nat} (h : b ≤ a) (ha : a < 2 ^ 64) : size_sub a b = a - b := by
  unfold size_sub
  omega

/-! ## Bytes -/

def load (m : List UInt8) (p : Int) : Option UInt8 :=
  if 0 ≤ p then m[p.toNat]? else none

def store (m : List UInt8) (p : Int) (b : UInt8) : Option (List UInt8) :=
  if 0 ≤ p ∧ p.toNat < m.length then some (m.set p.toNat b) else none

theorem load_at (pre post : List UInt8) (b : UInt8) {p : Int} (hp : p = pre.length) :
    load (pre ++ b :: post) p = some b := by
  subst hp
  unfold load
  rw [if_pos (Int.natCast_nonneg _), Int.toNat_natCast, List.getElem?_append_right (Nat.le_refl _),
    Nat.sub_self]
  rfl

theorem store_at (pre post : List UInt8) (b c : UInt8) {p : Int} (hp : p = pre.length) :
    store (pre ++ b :: post) p c = some (pre ++ c :: post) := by
  subst hp
  unfold store
  rw [if_pos ⟨Int.natCast_nonneg _, by simp⟩, Int.toNat_natCast,
    List.set_append_right _ _ (Nat.le_refl _), Nat.sub_self]
  rfl

theorem store_length {m m' : List UInt8} {p : Int} {b : UInt8} (h : store m p b = some m') :
    m'.length = m.length ∧ 0 ≤ p ∧ p < m.length := by
  unfold store at h
  split at h
  · next hp =>
      cases h
      exact ⟨List.length_set, hp.1, by omega⟩
  · cases h

/-- What succeeds in a part of the memory succeeds in all of it, and leaves the rest alone. -/
theorem load_frame {m : List UInt8} {p : Int} {b : UInt8} (h : load m p = some b)
    (pre post : List UInt8) : load (pre ++ (m ++ post)) (p + pre.length) = some b := by
  unfold load at h ⊢
  split at h
  · next hp =>
      have hlt := (List.getElem?_eq_some_iff.mp h).1
      rw [if_pos (by omega), show (p + pre.length).toNat = pre.length + p.toNat by omega,
        List.getElem?_append_right (Nat.le_add_right _ _), Nat.add_sub_cancel_left,
        List.getElem?_append_left hlt, h]
  · cases h

theorem store_frame {m m' : List UInt8} {p : Int} {b : UInt8} (h : store m p b = some m')
    (pre post : List UInt8) :
    store (pre ++ (m ++ post)) (p + pre.length) b = some (pre ++ (m' ++ post)) := by
  unfold store at h ⊢
  split at h
  · next hp =>
      cases h
      have hlen : (pre ++ (m ++ post)).length = pre.length + (m.length + post.length) := by simp
      rw [if_pos (by omega), show (p + pre.length).toNat = pre.length + p.toNat by omega,
        List.set_append_right _ _ (Nat.le_add_right _ _), Nat.add_sub_cancel_left,
        List.set_append_left _ _ hp.2]
  · cases h

/-- A block of bytes written at `p`. -/
def storeBytes (m : List UInt8) (p : Nat) (bs : List UInt8) : Option (List UInt8) :=
  if p + bs.length ≤ m.length then some (m.take p ++ bs ++ m.drop (p + bs.length)) else none

theorem storeBytes_eq_some {m m' bs : List UInt8} {p : Nat} (h : storeBytes m p bs = some m') :
    p + bs.length ≤ m.length ∧ m' = m.take p ++ bs ++ m.drop (p + bs.length) := by
  unfold storeBytes at h
  split at h
  · next hp =>
      cases h
      exact ⟨hp, rfl⟩
  · cases h

theorem storeBytes_length {m m' bs : List UInt8} {p : Nat} (h : storeBytes m p bs = some m') :
    m'.length = m.length := by
  obtain ⟨hp, rfl⟩ := storeBytes_eq_some h
  simp only [List.length_append, List.length_take, List.length_drop]
  omega

/-! ## Strings -/

/-- `strlen` on the bytes from the pointer on. -/
def strlen : List UInt8 → Option Nat
  | [] => none
  | b :: bs => if b = 0 then some 0 else (strlen bs).map (· + 1)

/-- `strchr` on the bytes from the pointer on: the distance to the first `c`, or `some none`
    for a null result. -/
def strchr (c : UInt8) : List UInt8 → Option (Option Nat)
  | [] => none
  | b :: bs =>
      if b = c then some (some 0)
      else if b = 0 then some none
      else (strchr c bs).map (Option.map (· + 1))

theorem strchr_lt {c : UInt8} {bs : List UInt8} {n : Nat} (h : strchr c bs = some (some n)) :
    n < bs.length := by
  induction bs generalizing n with
  | nil => cases h
  | cons b bs ih =>
      unfold strchr at h
      split at h
      · cases h
        exact Nat.succ_pos _
      · split at h
        · cases h
        · cases hrest : strchr c bs with
          | none => rw [hrest] at h; cases h
          | some r =>
              rw [hrest] at h
              cases r with
              | none => cases h
              | some k =>
                  cases h
                  exact Nat.succ_lt_succ (ih hrest)

/-- A scan that ends does not see what follows. -/
theorem strchr_append_of_some {c : UInt8} {bs : List UInt8} {r : Option Nat}
    (h : strchr c bs = some r) (post : List UInt8) : strchr c (bs ++ post) = some r := by
  induction bs generalizing r with
  | nil => cases h
  | cons b bs ih =>
      rw [List.cons_append, strchr]
      rw [strchr] at h
      split at h
      · rwa [if_pos ‹_›]
      · split at h
        · rwa [if_neg ‹_›, if_pos ‹_›]
        · obtain ⟨q, hq, rfl⟩ := Option.map_eq_some_iff.mp h
          rw [if_neg ‹_›, if_neg ‹_›, ih hq]
          rfl

/-! ## Copies between user and kernel memory -/

/-- The `n` bytes that `copy_from_user` stores when it leaves `left` of them uncopied. -/
def copy_from_user (src : List UInt8) (n left : Nat) : Option (List UInt8) :=
  if left ≤ n ∧ n - left ≤ src.length then
    some (src.take (n - left) ++ List.replicate left 0)
  else none

theorem copy_from_user_eq_some {src bs : List UInt8} {n left : Nat} :
    copy_from_user src n left = some bs ↔
      (left ≤ n ∧ n - left ≤ src.length) ∧
        bs = src.take (n - left) ++ List.replicate left 0 := by
  unfold copy_from_user
  constructor
  · intro h
    split at h
    · next hc => cases h; exact ⟨hc, rfl⟩
    · cases h
  · rintro ⟨hc, rfl⟩
    rw [if_pos hc]

theorem copy_from_user_length {src bs : List UInt8} {n left : Nat}
    (h : copy_from_user src n left = some bs) : left ≤ n ∧ bs.length = n := by
  obtain ⟨hc, rfl⟩ := copy_from_user_eq_some.mp h
  refine ⟨hc.1, ?_⟩
  rw [List.length_append, List.length_take, List.length_replicate]
  omega

/-- The bytes that `copy_to_user` delivers from `p` when it leaves `left` of `n` uncopied. -/
def copy_to_user (m : List UInt8) (p n left : Nat) : Option (List UInt8) :=
  if left ≤ n ∧ p + n ≤ m.length then some ((m.drop p).take (n - left)) else none

theorem copy_to_user_eq_some {m bs : List UInt8} {p n left : Nat} :
    copy_to_user m p n left = some bs ↔
      (left ≤ n ∧ p + n ≤ m.length) ∧ bs = (m.drop p).take (n - left) := by
  unfold copy_to_user
  constructor
  · intro h
    split at h
    · next hc => cases h; exact ⟨hc, rfl⟩
    · cases h
  · rintro ⟨hc, rfl⟩
    rw [if_pos hc]

/-- A complete copy of everything. -/
theorem copy_to_user_all (m : List UInt8) : copy_to_user m 0 m.length 0 = some m := by
  rw [copy_to_user_eq_some]
  exact ⟨by simp, by simp⟩

theorem copy_from_user_all (src : List UInt8) :
    copy_from_user src src.length 0 = some src := by
  unfold copy_from_user
  rw [if_pos ⟨Nat.zero_le _, Nat.sub_le _ _⟩, Nat.sub_zero, List.take_length,
    List.replicate_zero, List.append_nil]

end KernelBasecamp.Lib.CMem
