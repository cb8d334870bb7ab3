/-
  What a reader can learn about earlier writes.

  `example_write` does not terminate the message it copies, and `reverse_string` takes its
  length from `strlen`: what lies behind the message up to the next NUL is reversed with it,
  and the front of the result is what the reads deliver. `readBack` is what a client gets who
  writes a message in a state of the module and then reads, call by call.

  The reads see the state only through the message length and the bytes below it
  (`read_run`), and these bytes depend on the message alone if the byte right behind it is NUL
  (`readBack_clean`). For every other byte there are two fresh buffers that give themselves
  away (`readBack_soiled`).
-/
import KernelBasecamp.Procfs.Cursor
import KernelBasecamp.Procfs.Reverse

namespace KernelBasecamp.Procfs

open Lib Lib.CMem

/-- A newline-terminated message of at most `BUFFER_SIZE - 1` bytes whose words are non-empty
    and separated by single spaces. -/
structure Message (msg : List UInt8) : Prop where
  length_le : msg.length ≤ BUFFER_SIZE - 1
  words : ∃ ws, ws ≠ [] ∧ (∀ w ∈ ws, Word w) ∧ msg = text ws ++ [10]

/-- A state of the loaded module: any memory, any buffer in it, any calls. -/
def Reached (s : Session) : Prop :=
  ∃ kmalloc : List UInt8 × Nat, kmalloc.2 + BUFFER_SIZE ≤ kmalloc.1.length ∧
    ∃ dev, create_buffer (some kmalloc) = .ok dev ∧ ∃ calls, run step ⟨dev, []⟩ calls = some s

/-- Read calls: the file, the length and the number of bytes left uncopied. -/
def reading (reads : List (Nat × Nat × Nat)) : List Call :=
  reads.map fun r => .read r.1 r.2.1 r.2.2

/-- The bytes that reads deliver after a complete write of `msg`. -/
def readBack (s : Session) (file : Nat) (msg : List UInt8) (reads : List (Nat × Nat × Nat)) :
    Option (List UInt8) :=
  (run step s (.write file msg msg.length 0 :: reading reads)).map Session.delivered

/-- Two states that no client can tell apart by writing `msg` and reading. -/
def Alike (msg : List UInt8) (s t : Session) : Prop :=
  ∀ file reads, readBack s file msg reads = readBack t file msg reads

/-- The byte right behind a message of the length of `msg` in the buffer. -/
def behind (s : Rw) (msg : List UInt8) : Option UInt8 := s.mem[s.proc_buffer + msg.length]?

theorem Reached.inv {s : Session} (h : Reached s) : Inv s := by
  obtain ⟨kmalloc, hroom, dev, hload, calls, hrun⟩ := h
  refine run_invariant Inv ?_ (fun _ _ _ => inv_step) hrun
  cases hload
  exact ⟨Nat.le_refl 0, Nat.zero_le _, hroom, rfl⟩

/-! ## The reads -/

/-- The cursor after a list of reads of a message of `len` bytes. -/
def cursorAfter (len : Nat) : Nat → List (Nat × Nat × Nat) → Option Nat
  | pos, [] => some pos
  | pos, (_, length, left) :: reads =>
      if left ≤ min length (len - pos) then
        cursorAfter len (pos + (min length (len - pos) - left)) reads
      else none

theorem cursorAfter_le {len pos n : Nat} {reads : List (Nat × Nat × Nat)} (hpos : pos ≤ len)
    (h : cursorAfter len pos reads = some n) : n ≤ len := by
  induction reads generalizing pos with
  | nil =>
      cases h
      exact hpos
  | cons r reads ih =>
      unfold cursorAfter at h
      split at h
      · exact ih (by omega) h
      · cases h

theorem cursorAfter_isSome {len : Nat} {reads : List (Nat × Nat × Nat)}
    (h : ∀ r ∈ reads, r.2.2 = 0) (pos : Nat) : (cursorAfter len pos reads).isSome := by
  induction reads generalizing pos with
  | nil => rfl
  | cons r reads ih =>
      obtain ⟨file, length, left⟩ := r
      have hleft : left = 0 := h _ List.mem_cons_self
      rw [cursorAfter, if_pos (by omega)]
      exact ih (fun r hr => h r (List.mem_cons_of_mem _ hr)) _

theorem example_read_none {s : Rw} {length left : Nat} (hleft : request s length < left) :
    example_read s length left = none := by
  have hcopy : copy_to_user s.mem (s.proc_buffer + s.proc_msg_read_pos) (request s length) left =
      none := if_neg fun hc => absurd hc.1 (by omega)
  unfold example_read
  simp only [hcopy, Option.bind_eq_bind, Option.bind_none]

/-- Reads see the message length, the cursor and the buffer up to the length. -/
theorem read_run {s : Session} (h : Inv s) (reads : List (Nat × Nat × Nat)) :
    (run step s (reading reads)).map Session.delivered =
      (cursorAfter s.dev.proc_msg_length s.dev.proc_msg_read_pos reads).map s.dev.upTo := by
  induction reads generalizing s with
  | nil => exact congrArg some h.delivered
  | cons r reads ih =>
      obtain ⟨file, length, left⟩ := r
      have hreq := h.request_eq length
      by_cases hleft : left ≤ request s.dev length
      · obtain ⟨r, hr⟩ := Option.isSome_iff_exists.mp (h.example_read_isSome hleft)
        have hstep : step s (.read file length left) = some ⟨r.2.2, s.delivered ++ r.2.1⟩ :=
          congrArg (Option.map _) hr
        obtain ⟨hret, -, hmem, hbuf, hlen, hpos⟩ := h.example_read_spec hr
        have hupTo : r.2.2.upTo = s.dev.upTo := by
          funext n
          unfold Rw.upTo
          rw [hmem, hbuf]
        change ((step s (.read file length left)).bind
          fun s' => run step s' (reading reads)).map Session.delivered = _
        rw [hstep, Option.bind_some, ih (inv_step h hstep), hupTo, hlen, hpos, hret, hreq,
          cursorAfter, if_pos (hreq ▸ hleft)]
      · have hnone := example_read_none (Nat.lt_of_not_le hleft)
        have hstep : step s (.read file length left) = none := congrArg (Option.map _) hnone
        change ((step s (.read file length left)).bind
          fun s' => run step s' (reading reads)).map Session.delivered = _
        rw [hstep, cursorAfter, if_neg (hreq ▸ hleft)]
        rfl

/-! ## The write -/

section

variable {ws vs : List (List UInt8)} {y : UInt8} {msg post : List UInt8}

/-- A complete write, when the message and the bytes behind it are a text of words, one more
    byte `y` and a NUL. -/
theorem example_write_text {s : Rw} (hfit : s.proc_buffer + BUFFER_SIZE ≤ s.mem.length)
    (hmsg : msg.length ≤ BUFFER_SIZE) (hline : Line ws vs y)
    (htext : msg ++ s.mem.drop (s.proc_buffer + msg.length) = text ws ++ y :: 0 :: post) :
    example_write s msg msg.length 0 =
      some (msg.length, ⟨s.mem.take s.proc_buffer ++ (turned vs ++ y :: 0 :: post),
        s.proc_buffer, msg.length, 0⟩) := by
  have hpre : (s.proc_buffer : Int) = (s.mem.take s.proc_buffer).length := by
    rw [List.length_take]
    omega
  have hstore : storeBytes s.mem s.proc_buffer msg =
      some (s.mem.take s.proc_buffer ++ (text ws ++ y :: 0 :: post)) := by
    unfold storeBytes
    rw [if_pos (by omega), List.append_assoc, htext]
  have hrev := reverse_string_spec hline (s.mem.take s.proc_buffer) post hpre
  unfold example_write
  simp only [if_neg (Nat.not_lt.mpr hmsg), copy_from_user_all, hstore, hrev,
    Option.bind_eq_bind, Option.bind_some, Nat.sub_zero]

/-- The same, followed by reads. -/
theorem readBack_text {s : Session} (hs : Reached s) (hmsg : msg.length ≤ BUFFER_SIZE)
    (hline : Line ws vs y)
    (htext : msg ++ s.dev.mem.drop (s.dev.proc_buffer + msg.length) =
      text ws ++ y :: 0 :: post) (file : Nat) (reads : List (Nat × Nat × Nat)) :
    readBack s file msg reads = (cursorAfter msg.length 0 reads).map fun n =>
      (turned vs ++ y :: 0 :: post).take n := by
  have hwrite := example_write_text hs.inv.fits hmsg hline htext
  have hstep : step s (.write file msg msg.length 0) = some ⟨⟨s.dev.mem.take s.dev.proc_buffer ++
      (turned vs ++ y :: 0 :: post), s.dev.proc_buffer, msg.length, 0⟩, []⟩ :=
    congrArg (Option.map _) hwrite
  have hpre : (s.dev.mem.take s.dev.proc_buffer).length = s.dev.proc_buffer := by
    have := hs.inv.fits
    rw [List.length_take]
    omega
  unfold readBack
  rw [run_cons, hstep, Option.bind_some, read_run (inv_step hs.inv hstep)]
  congr 1
  funext n
  unfold Rw.upTo
  rw [List.drop_left' hpre]

end

/-! ## A clean and a soiled buffer -/

/-- With a NUL right behind the message the reads depend on the message alone. -/
theorem readBack_clean {msg : List UInt8} (hmsg : Message msg) :
    ∃ shown : List UInt8, ∀ s, Reached s → behind s.dev msg = some 0 → ∀ file reads,
      readBack s file msg reads = (cursorAfter msg.length 0 reads).map fun n => shown.take n := by
  obtain ⟨ws, hne, hws, rfl⟩ := hmsg.words
  have hle := hmsg.length_le
  unfold BUFFER_SIZE at hle
  rw [List.length_append, List.length_singleton] at hle
  obtain ⟨vs, hline, -⟩ := line_of_words hne hws (y := 10) (by decide) (by omega)
  refine ⟨turned vs ++ [10], fun s hs hbehind file reads => ?_⟩
  obtain ⟨hlt, hzero⟩ := List.getElem?_eq_some_iff.mp hbehind
  have htext : text ws ++ [10] ++ s.dev.mem.drop (s.dev.proc_buffer + (text ws ++ [10]).length) =
      text ws ++ 10 :: 0 :: s.dev.mem.drop (s.dev.proc_buffer + (text ws ++ [10]).length + 1) := by
    rw [List.drop_eq_getElem_cons hlt, hzero, List.append_assoc, List.singleton_append]
  rw [readBack_text hs (Nat.le_trans hmsg.length_le (by decide)) hline htext]
  refine Option.map_congr fun n hn => ?_
  have hn := cursorAfter_le (Nat.zero_le _) hn
  have hassoc : ∀ post, turned vs ++ 10 :: post = turned vs ++ [10] ++ post := by
    intro post
    rw [List.append_assoc, List.singleton_append]
  rw [hassoc, List.take_append_of_le_length]
  rwa [List.length_append, turned_length, hline.length_eq, ← List.length_append]

/-- A fresh buffer with the byte `b` and a letter `x` behind a message of `n` bytes. -/
def soiled (n : Nat) (b x : UInt8) : Session :=
  ⟨⟨List.replicate n 0 ++ b :: ((if b = 32 then [x] else [32, x]) ++
    46 :: 0 :: List.replicate BUFFER_SIZE 0), 0, 0, 0⟩, []⟩

theorem reached_soiled (n : Nat) (b x : UInt8) : Reached (soiled n b x) := by
  refine ⟨((soiled n b x).dev.mem, 0), ?_, _, rfl, [], rfl⟩
  simp only [soiled, List.length_append, List.length_cons, List.length_replicate]
  omega

theorem behind_soiled (msg : List UInt8) (b x : UInt8) :
    behind (soiled msg.length b x).dev msg = some b := by
  unfold behind soiled
  dsimp only
  rw [Nat.zero_add, List.getElem?_append_right (by simp), List.length_replicate, Nat.sub_self]
  rfl

/-- The last word comes first. -/
theorem turned_concat {ws vs : List (List UInt8)} {x : UInt8} (hx : toupper x = x)
    (hne : ws ≠ []) (h : List.Forall₂ (List.Forall₂ Raised) vs (ws ++ [[x]])) :
    ∃ rest, turned vs = x :: rest := by
  have hlen := h.length_eq
  have hpos := List.length_pos_of_ne_nil hne
  rw [List.length_append, List.length_singleton] at hlen
  rw [turned_of_ne_one (by omega)]
  have hrev := List.forall₂_reverse_iff.mpr h
  rw [List.reverse_append, List.reverse_singleton, List.singleton_append] at hrev
  obtain ⟨v, us, hv, hus, hvs⟩ := List.forall₂_cons_right_iff.mp hrev
  obtain ⟨c, cs, hc, hcs, rfl⟩ := List.forall₂_cons_right_iff.mp hv
  cases hcs
  have hc : c = x := by
    rcases hc with rfl | rfl
    · exact hx
    · rw [hx, hx]
  rw [hvs, hc]
  cases us with
  | nil => exact ⟨[], text_singleton [x]⟩
  | cons u us => exact ⟨_, text_cons_cons [x] u us⟩

/-- When a space and a letter follow the message, the letter is the first byte read; `t` is
    what lies between the words and that space. -/
theorem readBack_followed {s : Session} (hs : Reached s) {msg post t : List UInt8} {x : UInt8}
    (hlen : 1 ≤ msg.length ∧ msg.length ≤ BUFFER_SIZE) {ws : List (List UInt8)} (hne : ws ≠ [])
    (hws : ∀ w ∈ ws, Word w) (hlt : (text ws ++ t).length < 2 ^ 32) (ht₀ : 0 ∉ t) (ht : 32 ∉ t)
    (hx : toupper x = x) (hx₀ : x ≠ 0 ∧ x ≠ 32)
    (htext : msg ++ s.dev.mem.drop (s.dev.proc_buffer + msg.length) =
      text ws ++ (t ++ 32 :: x :: 46 :: 0 :: post)) :
    readBack s 0 msg [(0, 1, 0)] = some [x] := by
  obtain ⟨us, w, rfl⟩ := (List.eq_nil_or_concat' ws).resolve_left hne
  -- `t` belongs to the last word of the message, and `x` is a word behind it
  have hjoin : text (us ++ [w]) ++ t = text (us ++ [w ++ t]) := intercalate_append us w t
  have hjoin' : text (us ++ [w ++ t] ++ [[x]]) = text (us ++ [w]) ++ t ++ [32, x] := by
    rw [hjoin]
    exact intercalate_concat (by simp) [x]
  have hw := hws w (List.mem_append_right _ List.mem_cons_self)
  have hwords : ∀ v ∈ us ++ [w ++ t] ++ [[x]], Word v := by
    intro v hv
    simp only [List.mem_append, List.mem_singleton] at hv
    rcases hv with (hv | rfl) | rfl
    · exact hws v (List.mem_append_left _ hv)
    · exact ⟨by simp [hw.ne_nil], by simp [hw.no_nul, ht₀], by simp [hw.no_space, ht]⟩
    · exact ⟨by simp, by simpa using hx₀.1.symm, by simpa using hx₀.2.symm⟩
  have hlt' : (text (us ++ [w ++ t] ++ [[x]])).length + 1 < 2 ^ 63 := by
    rw [hjoin', List.length_append, List.length_cons, List.length_singleton]
    omega
  obtain ⟨vs, hline, hall⟩ := line_of_words (by simp) hwords (y := 46) (by decide) hlt'
  obtain ⟨rest, hrest⟩ := turned_concat hx (by simp) hall
  have hmem : msg ++ s.dev.mem.drop (s.dev.proc_buffer + msg.length) =
      text (us ++ [w ++ t] ++ [[x]]) ++ 46 :: 0 :: post := by
    rw [htext, hjoin']
    simp
  rw [readBack_text hs hlen.2 hline hmem, hrest]
  unfold cursorAfter cursorAfter
  rw [if_pos (Nat.zero_le _), show 0 + (min 1 (msg.length - 0) - 0) = 1 by omega]
  rfl

/-- With any other byte behind the message the first byte read is that of the soiled
    buffer. -/
theorem readBack_soiled {msg : List UInt8} (hmsg : Message msg) {b x : UInt8} (hb : b ≠ 0)
    (hx : toupper x = x) (hx₀ : x ≠ 0 ∧ x ≠ 32) :
    readBack (soiled msg.length b x) 0 msg [(0, 1, 0)] = some [x] := by
  obtain ⟨ws, hne, hws, rfl⟩ := hmsg.words
  have hle := hmsg.length_le
  unfold BUFFER_SIZE at hle
  have hlen : (text ws).length + 1 ≤ 255 := by simpa using hle
  have hdrop : (soiled (text ws ++ [10]).length b x).dev.mem.drop (0 + (text ws ++ [10]).length) =
      b :: ((if b = 32 then [x] else [32, x]) ++ 46 :: 0 :: List.replicate BUFFER_SIZE 0) := by
    rw [Nat.zero_add]
    exact List.drop_left' List.length_replicate
  have hbounds : 1 ≤ (text ws ++ [10]).length ∧ (text ws ++ [10]).length ≤ BUFFER_SIZE :=
    ⟨by simp, Nat.le_trans hmsg.length_le (by decide)⟩
  by_cases hspace : b = 32
  · have htext : text ws ++ [10] ++ (soiled (text ws ++ [10]).length b x).dev.mem.drop
        (0 + (text ws ++ [10]).length) =
          text ws ++ ([10] ++ 32 :: x :: 46 :: 0 :: List.replicate BUFFER_SIZE 0) := by
      rw [hdrop, if_pos hspace, hspace]
      simp
    refine readBack_followed (reached_soiled _ b x) hbounds hne hws ?_ (by decide) (by decide)
      hx hx₀ htext
    rw [List.length_append, List.length_singleton]
    omega
  · have htext : text ws ++ [10] ++ (soiled (text ws ++ [10]).length b x).dev.mem.drop
        (0 + (text ws ++ [10]).length) =
          text ws ++ ([10, b] ++ 32 :: x :: 46 :: 0 :: List.replicate BUFFER_SIZE 0) := by
      rw [hdrop, if_neg hspace]
      simp
    refine readBack_followed (reached_soiled _ b x) hbounds hne hws ?_ (by simp [hb.symm])
      (by simp [Ne.symm hspace]) hx hx₀ htext
    rw [List.length_append, List.length_cons, List.length_singleton]
    omega

/-- No state agrees with both soiled buffers. -/
theorem exists_not_alike {msg : List UInt8} (hmsg : Message msg) {b : UInt8} (hb : b ≠ 0)
    (u : Session) : ∃ x, ¬ Alike msg (soiled msg.length b x) u := by
  by_contra hall
  push Not at hall
  have h₀ := hall 48 0 [(0, 1, 0)]
  have h₁ := hall 49 0 [(0, 1, 0)]
  rw [← h₁, readBack_soiled hmsg hb (by decide) (by decide),
    readBack_soiled hmsg hb (by decide) (by decide)] at h₀
  exact absurd h₀ (by decide)

/-! ## The leak -/

/-- No client can tell any two states with the bytes `b₁` and `b₂` right behind the message
    apart, if and only if both bytes are NUL; complete reads are then all served. -/
theorem leak_free_iff {msg : List UInt8} (hmsg : Message msg) (b₁ b₂ : UInt8) :
    ((∀ s t, Reached s → Reached t → behind s.dev msg = some b₁ → behind t.dev msg = some b₂ →
      Alike msg s t) ↔ b₁ = 0 ∧ b₂ = 0) ∧
    (∀ s, Reached s → behind s.dev msg = some 0 → ∀ file reads, (∀ r ∈ reads, r.2.2 = 0) →
      (readBack s file msg reads).isSome) := by
  have hsoiled : ∀ b x, Reached (soiled msg.length b x) ∧
      behind (soiled msg.length b x).dev msg = some b :=
    fun b x => ⟨reached_soiled _ b x, behind_soiled msg b x⟩
  obtain ⟨shown, hshown⟩ := readBack_clean hmsg
  refine ⟨⟨fun h => ⟨?_, ?_⟩, ?_⟩, ?_⟩
  · by_contra hb
    obtain ⟨x, hx⟩ := exists_not_alike hmsg hb (soiled msg.length b₂ 48)
    exact hx (h _ _ (hsoiled b₁ x).1 (hsoiled b₂ 48).1 (hsoiled b₁ x).2 (hsoiled b₂ 48).2)
  · by_contra hb
    obtain ⟨x, hx⟩ := exists_not_alike hmsg hb (soiled msg.length b₁ 48)
    have halike := h _ _ (hsoiled b₁ 48).1 (hsoiled b₂ x).1 (hsoiled b₁ 48).2 (hsoiled b₂ x).2
    exact hx fun file reads => (halike file reads).symm
  · rintro ⟨rfl, rfl⟩ s t hs ht hbs hbt file reads
    rw [hshown s hs hbs, hshown t ht hbt]
  · intro s hs hbehind file reads hreads
    rw [hshown s hs hbehind, Option.isSome_map]
    exact cursorAfter_isSome hreads 0

/-- The module loaded with a cleared buffer. -/
def cleared : Session := ⟨⟨List.replicate BUFFER_SIZE 0, 0, 0, 0⟩, []⟩

theorem reached_cleared_run {calls : List Call} {s : Session}
    (h : run step cleared calls = some s) : Reached s := by
  refine ⟨(List.replicate BUFFER_SIZE 0, 0), ?_, _, rfl, calls, h⟩
  rw [List.length_replicate, Nat.zero_add]

theorem message_letter {c : UInt8} (hc : c ≠ 0 ∧ c ≠ 32) : Message [c, 10] := by
  refine ⟨Nat.le_of_ble_eq_true rfl, [[c]], List.cons_ne_nil _ _, ?_, by rw [text_singleton]; rfl⟩
  intro w hw
  rw [List.mem_singleton.mp hw]
  exact ⟨List.cons_ne_nil _ _, by simpa using hc.1.symm, by simpa using hc.2.symm⟩

/-- A client writes "a" on the cleared buffer, and after another client's "b". -/
theorem leak_free_iff_short :
    ∃ t, run step cleared [.write 0 [98, 10] 2 0] = some t ∧ Alike [97, 10] cleared t := by
  have hbehind : (run step cleared [.write 0 [98, 10] 2 0]).map (fun t => behind t.dev [97, 10]) =
      some (some 0) := by decide +kernel
  obtain ⟨t, ht, hzero⟩ := Option.map_eq_some_iff.mp hbehind
  have hmsg : Message [97, 10] := message_letter (by decide)
  exact ⟨t, ht, ((leak_free_iff hmsg 0 0).1.mpr ⟨rfl, rfl⟩) cleared t
    (reached_cleared_run (run_nil _)) (reached_cleared_run ht) (by decide +kernel) hzero⟩

/-- A client who writes "b" reads it back on the cleared buffer, and "AA" after somebody
    wrote "aaaa". -/
theorem leaked_bytes :
    Message [98, 10] ∧ ∃ s t, Reached s ∧ Reached t ∧
      readBack s 0 [98, 10] [(0, 2, 0)] = some [66, 10] ∧
      readBack t 0 [98, 10] [(0, 2, 0)] = some [65, 65] := by
  have hbytes : (run step cleared [.write 0 [97, 97, 97, 97, 10] 5 0]).bind
      (fun t => readBack t 0 [98, 10] [(0, 2, 0)]) = some [65, 65] := by decide +kernel
  obtain ⟨t, ht, hread⟩ := Option.bind_eq_some_iff.mp hbytes
  exact ⟨message_letter (by decide), cleared, t, reached_cleared_run (run_nil _),
    reached_cleared_run ht, by decide +kernel, hread⟩

end KernelBasecamp.Procfs
