/-
  NUL-terminated strings in C memory.

  A string at the head of a memory is a list `t` without a zero byte, followed by one: the
  memory is `t ++ 0 :: d`, where `d` is the room behind the terminator. The lemmas say what
  `strlen`, `strchr`, `strcat`, `snprintf` and `memcmp` do on memories of this shape, so that
  proofs about callers speak about `t` and `d` and not about offsets.
-/
import Mathlib
import KernelBasecamp.Lib.CMem

namespace KernelBasecamp.Lib.CMem

/-! ## The string at the head of a memory -/

/-- The bytes before the terminator. -/
def string (m : List UInt8) : List UInt8 := m.takeWhile fun c => c != 0

theorem takeWhile_append_nul {t : List UInt8} (ht : 0 ∉ t) (d : List UInt8) :
    (t ++ 0 :: d).takeWhile (fun c => c != 0) = t := by
  induction t with
  | nil => rfl
  | cons b t ih =>
      obtain ⟨hb, ht'⟩ := List.ne_and_not_mem_of_not_mem_cons ht
      have hb' : (b != 0) = true := bne_iff_ne.mpr (Ne.symm hb)
      rw [List.cons_append, List.takeWhile_cons, if_pos hb', ih ht']

theorem takeWhile_no_nul (m : List UInt8) : (0 : UInt8) ∉ m.takeWhile fun c => c != 0 := by
  intro h
  have h0 := List.mem_takeWhile_imp h
  simp at h0

/-- A memory goes on behind its string with the terminator, or it ends there. -/
theorem takeWhile_split (m : List UInt8) :
    (∃ d, m = (m.takeWhile fun c => c != 0) ++ 0 :: d) ∨ m = m.takeWhile fun c => c != 0 := by
  induction m with
  | nil => exact .inr rfl
  | cons b m ih =>
      by_cases hb : b = 0
      · subst hb
        exact .inl ⟨m, rfl⟩
      · rw [List.takeWhile_cons, if_pos (bne_iff_ne.mpr hb)]
        rcases ih with ⟨d, hd⟩ | hall
        · exact .inl ⟨d, congrArg (b :: ·) hd⟩
        · exact .inr (congrArg (b :: ·) hall)

/-! ## `strlen` and `strchr` -/

theorem strlen_append {t : List UInt8} (ht : 0 ∉ t) (d : List UInt8) :
    strlen (t ++ 0 :: d) = some t.length := by
  induction t with
  | nil => rfl
  | cons b t ih =>
      obtain ⟨hb, ht⟩ := List.ne_and_not_mem_of_not_mem_cons ht
      rw [List.cons_append, strlen, if_neg (Ne.symm hb), ih ht]
      rfl

theorem strlen_eq_some {m : List UInt8} {n : Nat} (h : strlen m = some n) :
    ∃ t d, m = t ++ 0 :: d ∧ 0 ∉ t ∧ t.length = n := by
  induction m generalizing n with
  | nil => cases h
  | cons b m ih =>
      rw [strlen] at h
      split at h
      · next hb =>
          cases h
          exact ⟨[], m, by rw [hb]; rfl, List.not_mem_nil, rfl⟩
      · next hb =>
          obtain ⟨k, hk, rfl⟩ := Option.map_eq_some_iff.mp h
          obtain ⟨t, d, rfl, ht, rfl⟩ := ih hk
          exact ⟨b :: t, d, rfl, List.not_mem_cons_of_ne_of_not_mem (Ne.symm hb) ht, rfl⟩

theorem strlen_isSome {m : List UInt8} : (∃ n, strlen m = some n) ↔ 0 ∈ m := by
  constructor
  · rintro ⟨n, hn⟩
    obtain ⟨t, d, rfl, -, -⟩ := strlen_eq_some hn
    exact List.mem_append_right t List.mem_cons_self
  · intro h
    obtain ⟨t, d, rfl, ht⟩ := List.eq_append_cons_of_mem h
    exact ⟨t.length, strlen_append ht d⟩

/-- `strchr` passes over bytes that are neither `c` nor the terminator. -/
theorem strchr_skip {c : UInt8} {t : List UInt8} (ht : 0 ∉ t) (hc : c ∉ t) (d : List UInt8) :
    strchr c (t ++ d) = (strchr c d).map (Option.map (· + t.length)) := by
  induction t with
  | nil => simp
  | cons b t ih =>
      obtain ⟨hb, ht⟩ := List.ne_and_not_mem_of_not_mem_cons ht
      obtain ⟨hcb, hc⟩ := List.ne_and_not_mem_of_not_mem_cons hc
      rw [List.cons_append, strchr, if_neg (Ne.symm hcb), if_neg (Ne.symm hb), ih ht hc,
        Option.map_map, List.length_cons]
      congr 1
      funext r
      exact Option.map_map ..

/-- `strchr` finds the first `c`. -/
theorem strchr_append {c : UInt8} {t : List UInt8} (ht : 0 ∉ t) (hc : c ∉ t) (d : List UInt8) :
    strchr c (t ++ c :: d) = some (some t.length) := by
  have hd : strchr c (c :: d) = some (some 0) := if_pos rfl
  rw [strchr_skip ht hc, hd, Option.map_some, Option.map_some, Nat.zero_add]

/-- `strchr` returns null on a string without `c`. -/
theorem strchr_null {c : UInt8} {t : List UInt8} (ht : 0 ∉ t) (hc : c ∉ t) (hc₀ : c ≠ 0)
    (d : List UInt8) : strchr c (t ++ 0 :: d) = some none := by
  have hd : strchr c (0 :: d) = some none := by rw [strchr, if_neg hc₀.symm, if_pos rfl]
  rw [strchr_skip ht hc, hd]
  rfl

/-! ## Writing behind a string -/

theorem storeBytes_append (t d : List UInt8) {bs : List UInt8} (h : bs.length ≤ d.length) :
    storeBytes (t ++ d) t.length bs = some (t ++ bs ++ d.drop bs.length) := by
  unfold storeBytes
  rw [if_pos (by rw [List.length_append]; omega), List.take_left' rfl, List.drop_append]
  simp

theorem storeBytes_append_none (t d : List UInt8) {bs : List UInt8} (h : d.length < bs.length) :
    storeBytes (t ++ d) t.length bs = none := by
  unfold storeBytes
  rw [if_neg (by rw [List.length_append]; omega)]

theorem storeBytes_of_le {m bs : List UInt8} {p : Nat} (h : p + bs.length ≤ m.length) :
    ∃ m', storeBytes m p bs = some m' := ⟨_, if_pos h⟩

/-- What is stored can be read at `p`. -/
theorem storeBytes_at {m m' bs : List UInt8} {p : Nat} (h : storeBytes m p bs = some m') :
    bs <+: m'.drop p := by
  obtain ⟨hp, rfl⟩ := storeBytes_eq_some h
  have hlen : (m.take p).length = p := List.length_take_of_le (by omega)
  rw [List.append_assoc, List.drop_left' hlen]
  exact List.prefix_append _ _

/-- What lies before `p` is not touched. -/
theorem storeBytes_before {m m' bs x : List UInt8} {p q : Nat}
    (h : storeBytes m p bs = some m') (hx : x <+: m.drop q) (hq : q + x.length ≤ p) :
    x <+: m'.drop q := by
  obtain ⟨hp, rfl⟩ := storeBytes_eq_some h
  have hlen : (m.take p).length = p := List.length_take_of_le (by omega)
  have hpre : x <+: (m.take p).drop q := by
    rw [List.drop_take, List.prefix_take_iff]
    exact ⟨hx, by omega⟩
  rw [List.append_assoc, List.drop_append_of_le_length (by omega)]
  exact hpre.trans (List.prefix_append _ _)

/-- `strcat(dst, src)`. -/
def strcat (dst src : List UInt8) : Option (List UInt8) := do
  let n ← strlen dst
  let k ← strlen src
  storeBytes dst n (src.take k ++ [0])

theorem strcat_append {t u : List UInt8} (ht : 0 ∉ t) (hu : 0 ∉ u) (d e : List UInt8) :
    strcat (t ++ 0 :: d) (u ++ 0 :: e) =
      if u.length ≤ d.length then some (t ++ u ++ 0 :: d.drop u.length) else none := by
  unfold strcat
  rw [strlen_append ht, strlen_append hu]
  change storeBytes (t ++ 0 :: d) t.length ((u ++ 0 :: e).take u.length ++ [0]) = _
  rw [List.take_left' rfl]
  split
  · next h =>
      rw [storeBytes_append t (0 :: d) (by simpa using h)]
      simp
  · next h => exact storeBytes_append_none t (0 :: d) (by simpa using h)

/-- `strcpy` to the offset `p` of `m`. -/
def strcpy (m : List UInt8) (p : Nat) (src : List UInt8) : Option (List UInt8) := do
  let k ← strlen src
  storeBytes m p (src.take k ++ [0])

theorem strcpy_append {u : List UInt8} (hu : 0 ∉ u) (m e : List UInt8) (p : Nat) :
    strcpy m p (u ++ 0 :: e) = storeBytes m p (u ++ [0]) := by
  unfold strcpy
  rw [strlen_append hu]
  change storeBytes m p ((u ++ 0 :: e).take u.length ++ [0]) = _
  rw [List.take_left' rfl]

/-- The `n` bytes that `strncpy(dst, src, n)` stores: the string cut off there, or filled up
    with zeros. -/
def strncpy (src : List UInt8) (n : Nat) : Option (List UInt8) :=
  let t := (src.take n).takeWhile fun c => c != 0
  if t.length = n ∨ t.length < src.length then some (t ++ List.replicate (n - t.length) 0)
  else none

theorem strncpy_append {t : List UInt8} (ht : 0 ∉ t) {n : Nat} (hn : t.length < n)
    (d : List UInt8) :
    strncpy (t ++ 0 :: d) n = some (t ++ List.replicate (n - t.length) 0) := by
  have htake : ((t ++ 0 :: d).take n).takeWhile (fun c => c != 0) = t := by
    obtain ⟨k, hk⟩ := Nat.exists_eq_add_of_lt hn
    rw [hk, Nat.add_assoc, List.take_append, List.take_of_length_le (by omega),
      Nat.add_sub_cancel_left, List.take_succ_cons]
    exact takeWhile_append_nul ht _
  unfold strncpy
  rw [htake, if_pos (Or.inr (by simp))]

/-- What `strncpy` stores has the length asked for, and if it is terminated it is the whole
    string. -/
theorem strncpy_terminated {src text : List UInt8} {n : Nat} (h : strncpy src n = some text) :
    text.length = n ∧ (0 ∈ text → ∃ t d, src = t ++ 0 :: d ∧ 0 ∉ t ∧ t.length < n) := by
  unfold strncpy at h
  have hle : ((src.take n).takeWhile fun c => c != 0).length ≤ n :=
    (List.takeWhile_sublist _).length_le.trans (List.length_take_le _ _)
  have hnul := takeWhile_no_nul (src.take n)
  dsimp only at h
  split at h
  · next hfits =>
      cases h
      rw [List.length_append, List.length_replicate]
      refine ⟨by omega, fun h0 => ?_⟩
      have hlt : ((src.take n).takeWhile fun c => c != 0).length < n := by
        rcases List.mem_append.mp h0 with h0 | h0
        · exact absurd h0 hnul
        · have hpos := List.length_pos_of_mem h0
          rw [List.length_replicate] at hpos
          omega
      rcases takeWhile_split (src.take n) with ⟨d, hd⟩ | hall
      · refine ⟨_, d ++ src.drop n, ?_, hnul, hlt⟩
        rw [← List.cons_append, ← List.append_assoc, ← hd, List.take_append_drop]
      -- the memory ends before the terminator
      · rw [← hall, List.length_take] at hlt hfits
        omega
  · cases h

/-- `strchr(strchr(s, c) + 1, c) + 1 - s`; a null result is advanced and used. -/
def afterSecond (c : UInt8) (m : List UInt8) : Option Nat := do
  let first ← (← strchr c m)
  let second ← (← strchr c (m.drop (first + 1)))
  some (first + 1 + (second + 1))

/-! ## `snprintf` -/

/-- What `%s` prints: the bytes up to the terminator, which has to be there. -/
def cString (m : List UInt8) : Option (List UInt8) := (strlen m).map m.take

theorem cString_eq (m : List UInt8) :
    cString m = if 0 ∈ m then some (m.takeWhile fun c => c != 0) else none := by
  unfold cString
  split
  · next h =>
      obtain ⟨n, hn⟩ := strlen_isSome.mpr h
      obtain ⟨t, d, rfl, ht, rfl⟩ := strlen_eq_some hn
      rw [hn, takeWhile_append_nul ht]
      exact congrArg some List.take_left
  · next h =>
      rw [Option.eq_none_iff_forall_ne_some.mpr fun n hn => h (strlen_isSome.mp ⟨n, hn⟩)]
      rfl

def INT_MAX : Nat := 2 ^ 31 - 1

/-- `snprintf(p, size, ..)` of the text `text`: it is cut off at `size - 1` bytes and
    terminated. With `size` 0 nothing is written; the kernel rejects a size above `INT_MAX`. -/
def snprintf (m : List UInt8) (p size : Nat) (text : List UInt8) : Option (List UInt8) :=
  if size = 0 ∨ INT_MAX < size then some m else storeBytes m p (text.take (size - 1) ++ [0])

theorem snprintf_length {m m' text : List UInt8} {p size : Nat}
    (h : snprintf m p size text = some m') : m'.length = m.length := by
  unfold snprintf at h
  split at h
  · cases h
    rfl
  · exact storeBytes_length h

theorem zeros_eq_cons {n : Nat} (h : 0 < n) :
    List.replicate n (0 : UInt8) = 0 :: List.replicate (n - 1) 0 := by
  rw [← List.replicate_succ, Nat.sub_add_cancel h]

/-- Printing at the start of a stretch of zeros. -/
theorem snprintf_zeros (t : List UInt8) (k : Nat) {size : Nat}
    (hsize : 0 < size ∧ size ≤ INT_MAX) (text : List UInt8) :
    snprintf (t ++ List.replicate k 0) t.length size text =
      if (text.take (size - 1)).length < k then
        some (t ++ text.take (size - 1) ++
          List.replicate (k - (text.take (size - 1)).length) 0)
      else none := by
  unfold snprintf
  rw [if_neg (by omega)]
  generalize text.take (size - 1) = w
  split
  · next hfit =>
      rw [storeBytes_append t _ (by simp; omega), List.length_append, List.length_singleton,
        List.drop_replicate, zeros_eq_cons (Nat.sub_pos_of_lt hfit), Nat.sub_sub]
      simp
  · next hfit => exact storeBytes_append_none t _ (by simp; omega)

section

variable {α : Type} {n : Nat} {ls : List (List α)}

/-- The pieces one behind the other, each cut off at `n`. -/
def cutEach (n : Nat) (ls : List (List α)) : List α := (ls.map (List.take n)).flatten

theorem cutEach_cons (n : Nat) (l : List α) (ls : List (List α)) :
    cutEach n (l :: ls) = l.take n ++ cutEach n ls := rfl

theorem cutEach_append (n : Nat) (ls ls' : List (List α)) :
    cutEach n (ls ++ ls') = cutEach n ls ++ cutEach n ls' := by
  unfold cutEach
  rw [List.map_append, List.flatten_append]

theorem cutEach_zero (ls : List (List α)) : cutEach 0 ls = [] := by
  induction ls with
  | nil => rfl
  | cons l ls ih => rw [cutEach_cons, ih, List.take_zero, List.append_nil]

theorem cutEach_of_le (h : ∀ l ∈ ls, l.length ≤ n) :
    cutEach n ls = ls.flatten := by
  unfold cutEach
  rw [List.map_congr_left fun l hl => List.take_of_length_le (h l hl), List.map_id']

theorem cutEach_length_pos (hn : n ≠ 0) (hls : ls ≠ [])
    (hne : ∀ l ∈ ls, l ≠ []) : 0 < (cutEach n ls).length := by
  cases ls with
  | nil => exact absurd rfl hls
  | cons l ls =>
      have hl := List.length_pos_of_ne_nil (hne l List.mem_cons_self)
      rw [cutEach_cons, List.length_append, List.length_take]
      omega

/-- Next to a piece that is cut off there is no room for another one. -/
theorem cutEach_length_le_iff_of_lt {as bs : List (List α)} {l : List α} (hl : n < l.length)
    (hne : ∀ l' ∈ as ++ l :: bs, l' ≠ []) :
    (cutEach n (as ++ l :: bs)).length ≤ n ↔ (as = [] ∧ bs = []) ∨ n = 0 := by
  have htake : (l.take n).length = n := List.length_take_of_le (Nat.le_of_lt hl)
  have hcut : (cutEach n (as ++ l :: bs)).length =
      (cutEach n as).length + (n + (cutEach n bs).length) := by
    rw [cutEach_append, cutEach_cons, List.length_append, List.length_append, htake]
  rw [hcut]
  constructor
  · intro hle
    by_cases hzero : n = 0
    · exact .inr hzero
    · refine .inl ⟨?_, ?_⟩
      · by_contra has
        have := cutEach_length_pos hzero has fun l hl => hne l (List.mem_append_left _ hl)
        omega
      · by_contra hbs
        have := cutEach_length_pos hzero hbs fun l hl =>
          hne l (List.mem_append_right _ (List.mem_cons_of_mem _ hl))
        omega
  · rintro (⟨rfl, rfl⟩ | rfl)
    · exact (Nat.zero_add n).le
    · rw [cutEach_zero, cutEach_zero]
      exact Nat.le_refl 0

/-- Pieces cut off one by one take no more room than the text cut off as a whole only when none
    is cut off, or there is a single one. -/
theorem cutEach_length_le_iff (n : Nat)
    (hne : ∀ l ∈ ls, l ≠ []) :
    (cutEach n ls).length ≤ n ↔ ls.flatten.length ≤ n ∨ ls.length ≤ 1 ∨ n = 0 := by
  by_cases hlong : ∃ l ∈ ls, n < l.length
  · obtain ⟨l, hl, hn⟩ := hlong
    obtain ⟨as, bs, rfl⟩ := List.append_of_mem hl
    have hflat : n < (as ++ l :: bs).flatten.length := by
      rw [List.flatten_append, List.flatten_cons, List.length_append, List.length_append]
      omega
    have hsingle : (as ++ l :: bs).length ≤ 1 ↔ as = [] ∧ bs = [] := by
      rw [List.length_append, List.length_cons, ← List.length_eq_zero_iff,
        ← List.length_eq_zero_iff]
      omega
    rw [cutEach_length_le_iff_of_lt hn hne, or_iff_right (Nat.not_le_of_lt hflat), hsingle]
  · rw [cutEach_of_le fun l hl => Nat.le_of_not_lt fun hn => hlong ⟨l, hl, hn⟩]
    refine ⟨.inl, ?_⟩
    rintro (hle | hle | rfl)
    · exact hle
    · match ls, hle with
      | [], _ => exact Nat.zero_le n
      | [l], _ =>
          have hl : l.length ≤ n := Nat.le_of_not_lt fun hn => hlong ⟨l, List.mem_cons_self, hn⟩
          simpa using hl
    · -- there is no piece at all
      match ls with
      | [] => exact Nat.le_refl 0
      | l :: ls =>
          exact absurd ⟨l, List.mem_cons_self,
            List.length_pos_of_ne_nil (hne l List.mem_cons_self)⟩ hlong

/-- In this case it is the text cut off as a whole. -/
theorem cutEach_eq_take (hne : ∀ l ∈ ls, l ≠ [])
    (h : (cutEach n ls).length ≤ n) : cutEach n ls = ls.flatten.take n := by
  rcases (cutEach_length_le_iff n hne).mp h with hle | hle | rfl
  · have hall : ∀ l ∈ ls, l.length ≤ n := fun l hl =>
      (List.sublist_flatten_of_mem hl).length_le.trans hle
    rw [cutEach_of_le hall, List.take_of_length_le hle]
  · match ls, hle with
    | [], _ => exact (List.take_nil ..).symm
    | [l], _ => simp [cutEach]
  · rw [cutEach_zero, List.take_zero]

end

/-! ## `strcmp` -/

/-- `strcmp(a, b)`: the difference of the first two bytes that differ, and 0 when both strings
    end. -/
def strcmp : List UInt8 → List UInt8 → Option Int
  | x :: xs, y :: ys =>
      if x = y then if x = 0 then some 0 else strcmp xs ys else some (x.toNat - y.toNat)
  | _, _ => none

theorem strcmp_eq_zero {a b : List UInt8} {d : Int} (h : strcmp a b = some d) :
    d = 0 ↔ (a.takeWhile fun c => c != 0) = b.takeWhile fun c => c != 0 := by
  fun_induction strcmp a b with
  | case1 xs ys =>
      cases h
      exact iff_of_true rfl rfl
  | case2 xs y ys hy ih =>
      have hy' : (y != 0) = true := bne_iff_ne.mpr hy
      rw [List.takeWhile_cons, List.takeWhile_cons, if_pos hy', if_pos hy', ih h,
        List.cons.injEq, and_iff_right rfl]
  | case3 x xs y ys hxy =>
      cases h
      have hne : x.toNat ≠ y.toNat := fun h => hxy (UInt8.toNat_inj.mp h)
      refine iff_of_false (by omega) fun h => ?_
      rw [List.takeWhile_cons, List.takeWhile_cons] at h
      split at h <;> split at h
      · exact hxy (List.cons.inj h).1
      · cases h
      · cases h
      · next hx hy =>
          rw [bne_iff_ne, not_not] at hx hy
          exact hxy (hx.trans hy.symm)
  | case4 => cases h

/-! ## `memcmp` -/

/-- `memcmp(a, b, n)`: the difference of the first two bytes that differ. The comparison stops
    there, so bytes behind it are not touched. -/
def memcmp : Nat → List UInt8 → List UInt8 → Option Int
  | 0, _, _ => some 0
  | n + 1, x :: xs, y :: ys => if x = y then memcmp n xs ys else some (x.toNat - y.toNat)
  | _ + 1, _, _ => none

/-- Comparing a memory that holds a terminated string with a name never leaves the memory, and
    finds them equal when the memory starts with the name. -/
theorem memcmp_eq {m u : List UInt8} (hm : 0 ∈ m) (hu : 0 ∉ u) (e : List UInt8) :
    ∃ r, memcmp u.length m (u ++ e) = some r ∧ (r = 0 ↔ u <+: m) := by
  induction u generalizing m with
  | nil => exact ⟨0, rfl, by simp⟩
  | cons y u ih =>
      obtain ⟨hy, hu'⟩ := List.ne_and_not_mem_of_not_mem_cons hu
      cases m with
      | nil => cases hm
      | cons x m =>
          rw [List.length_cons, List.cons_append, memcmp, List.cons_prefix_cons]
          split
          · next hxy =>
              subst hxy
              obtain ⟨r, hr, hiff⟩ := ih (List.mem_of_ne_of_mem hy hm) hu'
              exact ⟨r, hr, by simpa using hiff⟩
          · next hxy =>
              refine ⟨_, rfl, ?_⟩
              have hne : x.toNat ≠ y.toNat := fun h => hxy (UInt8.toNat_inj.mp h)
              constructor
              · intro h
                omega
              · rintro ⟨rfl, -⟩
                exact absurd rfl hxy

end KernelBasecamp.Lib.CMem
