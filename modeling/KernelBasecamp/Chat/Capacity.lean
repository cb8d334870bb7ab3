/-
  The capacity of the chat buffer.

  `dev_write` does not look at the room left, and relies on zero bytes behind the log for the
  terminator; `proc_write_reset` multiplies on `unsigned long`. `Fits` is the condition under
  which neither goes wrong: a number whose product with 1024 does not wrap, and a record that
  lies in the buffer and leaves a zero byte at its end or behind it.

  * `fits_iff`: in a state with a good buffer, a write or reset meets `Fits` exactly when it
    does not leave memory and the buffer is good again.
  * `capacity_run`: after a run whose steps all meet `Fits` the buffer is good.
  * `capacity_overrun`: one write of 1022 bytes takes the terminator away.
-/
import KernelBasecamp.Chat.Log

namespace KernelBasecamp.Chat

open Lib Lib.CMem

/-- The calls that write to the log or replace it. -/
def Act.Stores : Act → Prop
  | .write .. => True
  | .reset .. => True
  | _ => False

/-- The allocation of a reset succeeds. -/
def Act.Allocates : Act → Prop
  | .reset _ _ ok => ok = true
  | _ => True

/-- The mathematical size of the buffer after the call. -/
def Act.requests (size : Nat) : Act → Nat
  | .reset _ (some n) _ => if n ≠ 0 then n.toNat * 1024 else size
  | _ => size

/-- 1024 times the last non-zero number, or the default. -/
def requested (acts : List Act) : Nat := acts.foldl Act.requests DEFAULT_BUFFER_SIZE

theorem requested_concat (acts : List Act) (a : Act) :
    requested (acts ++ [a]) = a.requests (requested acts) := List.foldl_append

/-- The buffer has the mathematical size `size`, and the log with its terminator lies in it. -/
structure Sized (s : State) (size : Nat) : Prop where
  size_eq : s.chat_buffer_size = size
  log : ∃ m len, s.chat_buffer = some m ∧ m.length = size ∧ strlen m = some len ∧
    len + 1 ≤ s.chat_buffer_size

/-- A reset does not wrap; a record lies in the buffer and leaves a zero byte. -/
def Fits (s : State) : Act → Prop
  | .write index buf count left =>
      index = 0 ∨ ∃ m len n bytes, s.chat_buffer = some m ∧ strlen m = some len ∧
        strlen (s.user index) = some n ∧ copy_from_user buf count left = some bytes ∧
        len + n + 2 < m.length ∧ len + n + 2 + count ≤ m.length ∧
        (count = 0 ∨ 0 ∈ bytes ∨ 0 ∈ m.drop (len + n + 2 + count))
  | .reset _ (some n) _ => n.toNat * 1024 < 2 ^ 64
  | _ => True

/-- A buffer of the right size is good when it has a zero byte. -/
theorem sized_iff {s : State} {m : List UInt8} {size : Nat} (hm : s.chat_buffer = some m)
    (hlen : m.length = size) : Sized s size ↔ s.chat_buffer_size = size ∧ 0 ∈ m := by
  constructor
  · rintro ⟨hsize, m', n, hm', -, hn, -⟩
    rw [hm] at hm'
    cases hm'
    exact ⟨hsize, strlen_isSome.mp ⟨n, hn⟩⟩
  · rintro ⟨hsize, h0⟩
    obtain ⟨n, hn⟩ := strlen_isSome.mpr h0
    refine ⟨hsize, m, n, hm, hlen, hn, ?_⟩
    obtain ⟨t, d, rfl, -, rfl⟩ := strlen_eq_some hn
    rw [hsize, ← hlen, List.length_append, List.length_cons]
    omega

theorem Sized.congr {s s' : State} {size : Nat} (h : Sized s size)
    (hm : s'.chat_buffer = s.chat_buffer) (hsize : s'.chat_buffer_size = s.chat_buffer_size) :
    Sized s' size := by
  obtain ⟨hs, m, n, hbuf, hlen, hn, hle⟩ := h
  exact ⟨hsize.trans hs, m, n, hm.trans hbuf, hlen, hn, hsize ▸ hle⟩

theorem sized_loaded : Sized State.loaded DEFAULT_BUFFER_SIZE := by
  refine (sized_iff rfl List.length_replicate).mpr ⟨rfl, ?_⟩
  exact List.mem_replicate.mpr ⟨by decide, rfl⟩

/-- Calls that neither write nor reset leave the buffer alone. -/
theorem step_buffer {s s' : State} {a : Act} (ha : ¬ a.Stores) (h : step s a = some s') :
    s'.chat_buffer = s.chat_buffer ∧ s'.chat_buffer_size = s.chat_buffer_size := by
  cases a with
  | write => exact absurd trivial ha
  | reset => exact absurd trivial ha
  | add buffer length left =>
      obtain ⟨r, hr, rfl⟩ := Option.map_eq_some_iff.mp h
      unfold proc_write_add at hr
      simp only [Option.bind_eq_bind, Option.bind_eq_some_iff] at hr
      obtain ⟨_, _, _, _, _, _, hr⟩ := hr
      cases hr
      exact ⟨rfl, rfl⟩
  | read index count left =>
      rw [step_reads h trivial]
      exact ⟨rfl, rfl⟩
  | stat left =>
      rw [step_reads h trivial]
      exact ⟨rfl, rfl⟩

/-! ## One write or reset -/

/-- A zero byte is left behind the record: the terminator that `strcat` set, if nothing was
    copied over it, or one of the old buffer. -/
theorem mem_rest_iff (t d : List UInt8) (k c : Nat) :
    0 ∈ (0 :: d.drop k).drop c ↔ c = 0 ∨ 0 ∈ (t ++ 0 :: d).drop (t.length + k + c) := by
  cases c with
  | zero => simp
  | succ c =>
      rw [List.drop_succ_cons, List.drop_drop, Nat.add_assoc t.length, List.drop_length_add_append,
        ← Nat.add_assoc, List.drop_succ_cons]
      simp

/-- What a write leaves in the buffer is good when it has a zero byte. -/
theorem sized_write_iff {s : State} {size : Nat} {t d u bytes : List UInt8}
    (hsize : s.chat_buffer_size = size) (hlen : t.length + (d.length + 1) = size) (ht : 0 ∉ t)
    (hu : 0 ∉ u) (hroom : u.length + 2 ≤ d.length)
    (hfit : u.length + 2 + bytes.length ≤ d.length + 1) :
    Sized (s.setBuffer (t ++ message u bytes ++
        (0 :: d.drop (u.length + 2)).drop bytes.length)) size ↔
      bytes.length = 0 ∨ 0 ∈ bytes ∨
        0 ∈ (t ++ 0 :: d).drop (t.length + u.length + 2 + bytes.length) := by
  have hrest := mem_rest_iff t d (u.length + 2) bytes.length
  rw [← Nat.add_assoc] at hrest
  rw [sized_iff rfl, State.setBuffer_size, List.mem_append, hrest, List.mem_append, message,
    literal_colon]
  · simp [hsize, ht, hu, or_left_comm]
  · rw [List.length_append, List.length_append, message_length, List.length_drop,
      List.length_cons, List.length_drop]
    omega

theorem fits_write_iff {s : State} {size index count left : Nat} {buf : List UInt8}
    (h : Sized s size) :
    Fits s (.write index buf count left) ↔
      ∃ s', step s (.write index buf count left) = some s' ∧ Sized s' size := by
  by_cases hindex : index = 0
  · subst hindex
    exact ⟨fun _ => ⟨s, step_write_zero s buf count left, h⟩, fun _ => .inl rfl⟩
  · have hsize := h.size_eq
    obtain ⟨-, m, len, hm, hlen, hstr, -⟩ := h
    obtain ⟨t, d, rfl, ht, rfl⟩ := strlen_eq_some hstr
    rw [List.length_append, List.length_cons] at hlen
    constructor
    · rintro (h0 | ⟨m', len', n, bytes, hm', hstr', hn, hb, hroom, hfit, hzero⟩)
      · exact absurd h0 hindex
      · rw [hm] at hm'
        cases hm'
        rw [hstr] at hstr'
        cases hstr'
        obtain ⟨u, e, hu', hu, rfl⟩ := strlen_eq_some hn
        obtain rfl : bytes.length = count := (copy_from_user_length hb).2
        rw [List.length_append, List.length_cons] at hroom hfit
        have hroom' : u.length + 2 ≤ d.length := by omega
        have hfit' : u.length + 2 + bytes.length ≤ d.length + 1 := by omega
        have hwrite := (dev_write_iff hindex).mpr
          ⟨t, d, u, e, bytes, hm, ht, hu', hu, hb, hroom', hfit', rfl⟩
        exact ⟨_, congrArg (Option.map Prod.fst) hwrite,
          (sized_write_iff hsize hlen ht hu hroom' hfit').mpr hzero⟩
    · rintro ⟨s', hstep, hsized⟩
      obtain ⟨r, hr, rfl⟩ := Option.map_eq_some_iff.mp hstep
      obtain ⟨t', d', u, e, bytes, hm', ht', hu', hu, hb, hroom, hfit, rfl⟩ :=
        (dev_write_iff hindex).mp hr
      obtain ⟨rfl, rfl⟩ := split_unique ht ht' (Option.some.inj (hm.symm.trans hm'))
      obtain rfl : bytes.length = count := (copy_from_user_length hb).2
      have hn : strlen (s.user index) = some u.length := by
        rw [hu', strlen_append hu]
      refine .inr ⟨_, _, u.length, bytes, hm, hstr, hn, hb, ?_, ?_,
        (sized_write_iff hsize hlen ht hu hroom hfit).mp hsized⟩
      · rw [List.length_append, List.length_cons]
        omega
      · rw [List.length_append, List.length_cons]
        omega

theorem fits_reset_iff {s : State} {size length : Nat} {parsed : Option UInt64}
    (h : Sized s size) :
    Fits s (.reset length parsed true) ↔
      ∃ s', step s (.reset length parsed true) = some s' ∧
        Sized s' ((Act.reset length parsed true).requests size) := by
  cases parsed with
  | none => exact ⟨fun _ => ⟨s, rfl, h⟩, fun _ => trivial⟩
  | some n =>
      by_cases hn : n = 0
      · subst hn
        refine ⟨fun _ => ⟨s, rfl, h⟩, fun _ => ?_⟩
        change 0 * 1024 < 2 ^ 64
        decide
      · have hmul : (n * 1024).toNat = n.toNat * 1024 % 2 ^ 64 := UInt64.toNat_mul n 1024
        have hpos : 0 < n.toNat := Nat.pos_of_ne_zero fun h0 => hn (UInt64.toNat_inj.mp h0)
        have hreq : (Act.reset length (some n) true).requests size = n.toNat * 1024 := if_pos hn
        rw [hreq, step_reset s hn]
        constructor
        · intro hfits
          have hsize : (n * 1024).toNat = n.toNat * 1024 :=
            hmul.trans (Nat.mod_eq_of_lt hfits)
          refine ⟨_, rfl, ?_⟩
          rw [hsize]
          have hne : n.toNat * 1024 ≠ 0 := by omega
          refine (sized_iff (m := List.replicate (n.toNat * 1024) 0) ?_
            List.length_replicate).mpr ⟨rfl, List.mem_replicate.mpr ⟨hne, rfl⟩⟩
          unfold kmalloc
          rw [if_neg hne, if_pos rfl]
        · rintro ⟨s', hs', hsized⟩
          cases hs'
          have hsize : (n * 1024).toNat = n.toNat * 1024 := hsized.size_eq
          change n.toNat * 1024 < 2 ^ 64
          rw [← hsize]
          exact UInt64.toNat_lt _

/-- A write or reset meets `Fits` exactly when it stays in memory and leaves a good buffer. -/
theorem fits_iff {s : State} {size : Nat} {a : Act} (h : Sized s size) (ha : a.Stores)
    (halloc : a.Allocates) :
    Fits s a ↔ ∃ s', step s a = some s' ∧ Sized s' (a.requests size) := by
  cases a with
  | write index buf count left => exact fits_write_iff h
  | reset length parsed ok =>
      obtain rfl : ok = true := halloc
      exact fits_reset_iff h
  | add => exact ha.elim
  | read => exact ha.elim
  | stat => exact ha.elim

/-! ## Runs -/

/-- After a run whose steps all meet `Fits` the buffer has the requested size and the log with
    its terminator lies in it; the next write or reset keeps it so, without leaving memory,
    exactly when it meets `Fits`. -/
theorem capacity_run {acts : List Act} {s : State} (halloc : ∀ a ∈ acts, a.Allocates)
    (hfits : AllSteps step Fits State.loaded acts) (hrun : run step State.loaded acts = some s) :
    Sized s (requested acts) ∧
    ∀ a, a.Stores → a.Allocates →
      (Fits s a ↔ ∃ s', step s a = some s' ∧ Sized s' (requested (acts ++ [a]))) := by
  have h : (∀ a ∈ acts, a.Allocates) → Sized s (requested acts) := by
    refine run_induct (fun acts s => (∀ a ∈ acts, a.Allocates) → Sized s (requested acts))
      (fun _ => sized_loaded) ?_ hfits hrun
    intro acts s a s' ih hfit hstep halloc
    have hs := ih fun b hb => halloc b (List.mem_append_left [a] hb)
    rw [requested_concat]
    by_cases ha : a.Stores
    · obtain ⟨t, ht, hsized⟩ :=
        (fits_iff hs ha (halloc a (List.mem_append_right acts List.mem_cons_self))).mp hfit
      rw [hstep] at ht
      cases ht
      exact hsized
    · obtain ⟨hm, hsize⟩ := step_buffer ha hstep
      have hreq : a.requests (requested acts) = requested acts := by
        cases a with
        | reset => exact absurd trivial ha
        | write | add | read | stat => rfl
      rw [hreq]
      exact hs.congr hm hsize
  refine ⟨h halloc, fun a ha halloc' => ?_⟩
  rw [requested_concat]
  exact fits_iff (h halloc) ha halloc'

/-- A reset to 2048 bytes. -/
theorem capacity_run_reset : ∃ s, run step State.loaded [.reset 1 (some 2) true] = some s ∧
    Sized s 2048 := by
  have hfits : AllSteps step Fits State.loaded [.reset 1 (some 2) true] :=
    ⟨by change 2 * 1024 < 2 ^ 64; decide, fun _ _ => trivial⟩
  have halloc : ∀ a ∈ [Act.reset 1 (some 2) true], a.Allocates := by
    intro a ha
    rw [List.mem_singleton.mp ha]
    rfl
  exact ⟨_, rfl, (capacity_run halloc hfits rfl).1⟩

/-- A write of 1022 bytes that are not zero, behind the empty name and ": ". -/
def overrun : Act := .write 1 (List.replicate 1022 65) 1022 0

theorem copy_overrun :
    copy_from_user (List.replicate 1022 65) 1022 0 = some (List.replicate 1022 65) := by
  have h := copy_from_user_all (List.replicate 1022 65)
  rw [List.length_replicate] at h
  exact h

theorem user_loaded : State.loaded.user 1 = [] ++ 0 :: List.replicate 479 0 := by
  change ([97, 108, 108, 0] ++ List.replicate 508 (0 : UInt8)).drop 32 = _
  rw [List.drop_append, List.drop_of_length_le (by decide), List.drop_replicate]
  rfl

theorem buffer_loaded :
    State.loaded.chat_buffer = some ([] ++ 0 :: List.replicate 1023 0) := rfl

/-- The write stays in memory. -/
theorem step_overrun : ∃ s, step State.loaded overrun = some s := by
  have hroom : ([] : List UInt8).length + 2 ≤ (List.replicate 1023 (0 : UInt8)).length := by
    rw [List.length_replicate]
    decide
  have hfit : ([] : List UInt8).length + 2 + (List.replicate 1022 (65 : UInt8)).length ≤
      (List.replicate 1023 (0 : UInt8)).length + 1 := by
    rw [List.length_replicate, List.length_replicate]
    decide
  obtain ⟨r, hr⟩ : ∃ r, dev_write State.loaded 1 (List.replicate 1022 65) 1022 0 = some r :=
    ⟨_, (dev_write_iff (by decide)).mpr ⟨[], _, [], _, _, buffer_loaded, List.not_mem_nil,
      user_loaded, List.not_mem_nil, copy_overrun, hroom, hfit, rfl⟩⟩
  refine ⟨r.1, ?_⟩
  unfold step overrun
  dsimp only
  rw [hr, Option.map_some]

/-- The record ends where the buffer does, and has no zero. -/
theorem not_fits_overrun : ¬ Fits State.loaded overrun := by
  rintro (h | ⟨m, len, n, bytes, hm, hlen, hn, hb, -, -, hzero⟩)
  · cases h
  · rw [buffer_loaded] at hm
    cases hm
    rw [strlen_append List.not_mem_nil] at hlen
    rw [user_loaded, strlen_append List.not_mem_nil] at hn
    rw [copy_overrun] at hb
    cases hlen
    cases hn
    cases hb
    have hend : ([] ++ 0 :: List.replicate 1023 (0 : UInt8)).length ≤
        ([] : List UInt8).length + ([] : List UInt8).length + 2 + 1022 := by
      rw [List.nil_append, List.length_cons, List.length_replicate]
      decide
    rw [List.drop_of_length_le hend] at hzero
    rcases hzero with h | h | h
    · exact absurd h (by decide)
    · exact absurd (List.mem_replicate.mp h).2 (by decide)
    · cases h

/-- A single write is enough for the log to leave no room for its terminator. -/
theorem capacity_overrun : ¬ ∀ (acts : List Act) (s : State),
    (∀ a ∈ acts, a.Stores ∧ a.Allocates) → run step State.loaded acts = some s →
      Sized s (requested acts) := by
  intro hall
  obtain ⟨s, hs⟩ := step_overrun
  have hrun : run step State.loaded [overrun] = some s := by
    rw [run_cons, hs, Option.bind_some, run_nil]
  have hsized : Sized s (requested [overrun]) := by
    refine hall [overrun] s (fun a ha => ?_) hrun
    rw [List.mem_singleton.mp ha]
    exact ⟨trivial, trivial⟩
  exact not_fits_overrun ((fits_write_iff sized_loaded).mpr ⟨s, hs, hsized⟩)

end KernelBasecamp.Chat
