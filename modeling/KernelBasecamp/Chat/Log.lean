/-
  What `dev_write` and `dev_read` do to a log, in terms of texts and lines.

  * `dev_write_iff` says everything `dev_write` can do: it replaces the log `t` by `t`, the
    user's name, ": " and the bytes copied, and needs room for these.
  * `scan_view`: on a log made of lines, the loop of `dev_read` delivers the lines that are the
    user's, in order. On a log whose last line is not ended by a newline it faults.
  * `dev_read_lines`: with complete user copies the user's buffer holds these lines, one after
    the other, and their total length is returned.

  `mine` tests a line for the prefix that `dev_read` looks for. That the line of a record starts
  with the name of its writer, and with no other, is not assumed here.
-/
import KernelBasecamp.Lib.Lines
import KernelBasecamp.Chat.Dyndev

namespace KernelBasecamp.Chat

open Lib Lib.CMem

/-- The log: the buffer up to its first zero. -/
def State.log (s : State) : List UInt8 := (s.chat_buffer.getD []).takeWhile fun c => c != 0

/-- The name of a user: the row up to its first zero. -/
def State.name (s : State) (index : Nat) : List UInt8 :=
  (s.user index).takeWhile fun c => c != 0

theorem State.log_eq {s : State} {t d : List UInt8} (ht : 0 ∉ t)
    (hm : s.chat_buffer = some (t ++ 0 :: d)) : s.log = t := by
  unfold State.log
  rw [hm, Option.getD_some, takeWhile_append_nul ht]

theorem State.name_eq {s : State} {index : Nat} {u e : List UInt8} (hu : 0 ∉ u)
    (hu' : s.user index = u ++ 0 :: e) : s.name index = u := by
  unfold State.name
  rw [hu', takeWhile_append_nul hu]

/-! ## Appending -/

/-- What `dev_write` appends: the name, ": " and the bytes. -/
def message (name bytes : List UInt8) : List UInt8 := name ++ literal ": " ++ bytes

theorem literal_colon : literal ": " = [58, 32] := by decide

theorem message_length (name bytes : List UInt8) :
    (message name bytes).length = name.length + 2 + bytes.length := by
  unfold message
  rw [literal_colon, List.length_append, List.length_append]
  rfl

theorem strcat_eq_some {dst src m : List UInt8} (h : strcat dst src = some m) :
    ∃ t d u e, dst = t ++ 0 :: d ∧ 0 ∉ t ∧ src = u ++ 0 :: e ∧ 0 ∉ u ∧
      u.length ≤ d.length ∧ m = t ++ u ++ 0 :: d.drop u.length := by
  have hcat := h
  unfold strcat at h
  simp only [Option.bind_eq_bind, Option.bind_eq_some_iff] at h
  obtain ⟨n, hn, k, hk, -⟩ := h
  obtain ⟨t, d, rfl, ht, -⟩ := strlen_eq_some hn
  obtain ⟨u, e, rfl, hu, -⟩ := strlen_eq_some hk
  rw [strcat_append ht hu] at hcat
  split at hcat
  · next hroom => exact ⟨t, d, u, e, rfl, ht, rfl, hu, hroom, (Option.some.inj hcat).symm⟩
  · cases hcat

/-- A terminated memory is split at its first zero in one way. -/
theorem split_unique {t t' d d' : List UInt8} (ht : 0 ∉ t) (ht' : 0 ∉ t')
    (h : t ++ 0 :: d = t' ++ 0 :: d') : t = t' ∧ d = d' := by
  have hlen : t.length = t'.length := by
    have hn := strlen_append ht d
    rw [h, strlen_append ht' d'] at hn
    exact (Option.some.inj hn).symm
  obtain ⟨rfl, hd⟩ := List.append_inj h hlen
  exact ⟨rfl, (List.cons.inj hd).2⟩

def State.setBuffer (s : State) (m : List UInt8) : State := { s with chat_buffer := some m }

@[simp] theorem State.setBuffer_chat_buffer (s : State) (m : List UInt8) :
    (s.setBuffer m).chat_buffer = some m := rfl

@[simp] theorem State.setBuffer_size (s : State) (m : List UInt8) :
    (s.setBuffer m).chat_buffer_size = s.chat_buffer_size := rfl

/-- A write through minor 0 does nothing. -/
theorem step_write_zero (s : State) (buf : List UInt8) (count left : Nat) :
    step s (.write 0 buf count left) = some s := rfl

/-- Everything `dev_write` can do on a minor other than 0. -/
theorem dev_write_iff {s : State} {index : Nat} (hindex : index ≠ 0) {buf : List UInt8}
    {count left : Nat} {r : State × Nat} :
    dev_write s index buf count left = some r ↔
      ∃ t d u e bytes, s.chat_buffer = some (t ++ 0 :: d) ∧ 0 ∉ t ∧
        s.user index = u ++ 0 :: e ∧ 0 ∉ u ∧ copy_from_user buf count left = some bytes ∧
        u.length + 2 ≤ d.length ∧ u.length + 2 + bytes.length ≤ d.length + 1 ∧
        r = (s.setBuffer (t ++ message u bytes ++
          (0 :: d.drop (u.length + 2)).drop bytes.length), count - left) := by
  have hcolon : (0 : UInt8) ∉ literal ": " := by decide
  have hcolonLength : (literal ": ").length = 2 := by decide
  unfold dev_write
  rw [if_neg hindex]
  simp only [Option.bind_eq_bind, Option.bind_eq_some_iff]
  constructor
  · rintro ⟨m, hm, m₁, h₁, m₂, h₂, p, hp, bytes, hb, m₃, h₃, hr⟩
    obtain ⟨t, d, u, e, rfl, ht, hu', hu, hroom, rfl⟩ := strcat_eq_some h₁
    have htu : 0 ∉ t ++ u := by simp [ht, hu]
    rw [strcat_append htu hcolon, hcolonLength, List.length_drop, List.drop_drop] at h₂
    split at h₂
    · next hroom₂ =>
        cases h₂
        have htuc : 0 ∉ t ++ u ++ literal ": " := by simp [ht, hu, hcolon]
        rw [strlen_append htuc] at hp
        cases hp
        by_cases hfit : bytes.length ≤ (0 :: d.drop (u.length + 2)).length
        · rw [storeBytes_append _ _ hfit] at h₃
          cases h₃
          cases hr
          rw [List.length_cons, List.length_drop] at hfit
          refine ⟨t, d, u, e, bytes, hm, ht, hu', hu, hb, by omega, by omega, ?_⟩
          unfold message State.setBuffer
          simp only [List.append_assoc]
        · rw [storeBytes_append_none _ _ (Nat.lt_of_not_le hfit)] at h₃
          cases h₃
    · cases h₂
  · rintro ⟨t, d, u, e, bytes, hm, ht, hu', hu, hb, hroom, hfit, rfl⟩
    have htu : 0 ∉ t ++ u := by simp [ht, hu]
    have htuc : 0 ∉ t ++ u ++ literal ": " := by simp [ht, hu, hcolon]
    refine ⟨_, hm, t ++ u ++ 0 :: d.drop u.length, ?_, t ++ u ++ literal ": " ++
      0 :: d.drop (u.length + 2), ?_, _, strlen_append htuc _, bytes, hb, _,
      storeBytes_append _ _ ?_, ?_⟩
    · rw [hu', strcat_append ht hu, if_pos (by omega)]
    · rw [strcat_append htu hcolon, hcolonLength, List.length_drop, List.drop_drop,
        if_pos (by omega)]
    · rw [List.length_cons, List.length_drop]
      omega
    · unfold message State.setBuffer
      simp only [List.append_assoc]

/-- On a buffer that is zero behind the log, with room for the record and a terminator, the
    record is appended and the rest stays zero. -/
theorem dev_write_zeros {s : State} {index : Nat} (hindex : index ≠ 0)
    {buf bytes t u e : List UInt8} {count left n : Nat}
    (hm : s.chat_buffer = some (t ++ List.replicate (n + 1) 0)) (ht : 0 ∉ t)
    (hu' : s.user index = u ++ 0 :: e) (hu : 0 ∉ u)
    (hb : copy_from_user buf count left = some bytes) (hfit : (message u bytes).length ≤ n) :
    dev_write s index buf count left = some (s.setBuffer (t ++ message u bytes ++
      List.replicate (n - (message u bytes).length + 1) 0), count - left) := by
  rw [message_length] at hfit ⊢
  refine (dev_write_iff hindex).mpr ⟨t, List.replicate n 0, u, e, bytes, hm, ht, hu', hu, hb, ?_,
    ?_, ?_⟩
  · rw [List.length_replicate]
    omega
  · rw [List.length_replicate]
    omega
  · rw [List.drop_replicate, ← List.replicate_succ, List.drop_replicate]
    congr 6
    omega

theorem step_reset (s : State) {n : UInt64} (hn : n ≠ 0) (length : Nat) (ok : Bool) :
    step s (.reset length (some n) ok) =
      some { s with
        chat_buffer_size := (n * 1024).toNat
        chat_buffer := kmalloc (n * 1024).toNat ok } := by
  change some (proc_write_reset s length (some n) ok).1 = _
  unfold proc_write_reset
  dsimp only
  rw [if_pos hn]

/-! ## Reading -/

/-- The lines that `dev_read` takes to be those of the user `name` at `index`. -/
def mine (index : Nat) (name l : List UInt8) : Bool :=
  index == 0 || (name ++ [58]).isPrefixOf l

theorem mine_iff {index : Nat} {name l : List UInt8} (hindex : index ≠ 0) :
    mine index name l = true ↔ name ++ [58] <+: l := by
  unfold mine
  rw [Bool.or_eq_true, List.isPrefixOf_iff_prefix, beq_iff_eq]
  exact or_iff_right hindex

theorem isMine_eq (index : Nat) {name m : List UInt8} (hname : 0 ∉ name) (hm : 0 ∈ m)
    (e : List UInt8) :
    isMine index (name ++ 0 :: e) name.length m = some (mine index name m) := by
  unfold isMine
  split
  · next h => rw [h]; rfl
  · next hindex =>
      obtain ⟨r, hr, hiff⟩ := memcmp_eq hm hname (0 :: e)
      rw [hr, Option.bind_eq_bind, Option.bind_some]
      split
      · next h0 =>
          -- the memory goes on behind the name, since its zero lies there
          obtain ⟨m', rfl⟩ := hiff.mp h0
          cases m' with
          | nil => simp [hname] at hm
          | cons c m' =>
              rw [List.getElem?_append_right (Nat.le_refl _), Nat.sub_self]
              change some (c == 58) = _
              congr 1
              rw [Bool.eq_iff_iff, mine_iff hindex, beq_iff_eq, List.prefix_append_right_inj,
                List.cons_prefix_cons]
              simp [eq_comm]
      · next h0 =>
          congr 1
          rw [eq_comm, Bool.eq_false_iff, Ne, mine_iff hindex]
          exact fun hpre => h0 (hiff.mpr ((List.prefix_append name [58]).trans hpre))

/-- The copies that deliver the lines `ls` to the user's buffer from the offset `out` on. -/
def deliver (left : Nat → Nat) (out : Nat) :
    List (List UInt8) → Option (Nat × List (Nat × List UInt8))
  | [] => some (out, [])
  | l :: ls =>
      (copy_to_user l 0 l.length (left out)).bind fun bytes =>
        (deliver left (out + l.length) ls).map fun rest => (rest.1, (out, bytes) :: rest.2)

theorem copy_to_user_append (l rest : List UInt8) (left : Nat) :
    copy_to_user (l ++ rest) 0 l.length left = copy_to_user l 0 l.length left := by
  unfold copy_to_user
  by_cases h : left ≤ l.length
  · rw [if_pos ⟨h, by simp⟩, if_pos ⟨h, by simp⟩, List.drop_zero, List.drop_zero,
      List.take_append_of_le_length (Nat.sub_le _ _)]
  · rw [if_neg fun hc => h hc.1, if_neg fun hc => h hc.1]

/-- A line of a log: ended by its only newline, without a zero. -/
def LogLine (l : List UInt8) : Prop := IsLine 10 l ∧ 0 ∉ l

instance (l : List UInt8) : Decidable (LogLine l) :=
  inferInstanceAs (Decidable (IsLine 10 l ∧ 0 ∉ l))

theorem LogLine.strchr_append {l : List UInt8} (hl : LogLine l) (rest : List UInt8) :
    ∃ k, strchr 10 (l ++ rest) = some (some k) ∧ k + 1 = l.length := by
  obtain ⟨⟨body, hbody, rfl⟩, hl0⟩ := hl
  have hbody0 : 0 ∉ body := fun h => hl0 (List.mem_append_left _ h)
  refine ⟨body.length, ?_, by rw [List.length_append]; rfl⟩
  rw [List.append_assoc]
  exact CMem.strchr_append hbody0 hbody rest

theorem LogLine.load_append {l : List UInt8} (hl : LogLine l) (rest : List UInt8) :
    ∃ c, load (l ++ rest) 0 = some c ∧ c ≠ 0 := by
  obtain ⟨⟨body, -, rfl⟩, hl0⟩ := hl
  cases body with
  | nil => exact ⟨10, rfl, by decide⟩
  | cons c body => exact ⟨c, rfl, fun h => hl0 (h ▸ List.mem_cons_self)⟩

/-- The prefix test does not look behind the line. -/
theorem LogLine.mine_append (index : Nat) {name l : List UInt8} (hname : 10 ∉ name)
    (hl : LogLine l) (rest : List UInt8) : mine index name (l ++ rest) = mine index name l := by
  unfold mine
  congr 1
  rw [Bool.eq_iff_iff, List.isPrefixOf_iff_prefix, List.isPrefixOf_iff_prefix]
  exact hl.1.prefix_iff 10 (by simp [hname])

/-- Nor does it look behind the log. -/
theorem mine_append_nul (index : Nat) {name : List UInt8} (hname : 0 ∉ name) (t z : List UInt8) :
    mine index name (t ++ 0 :: z) = mine index name t := by
  unfold mine
  congr 1
  rw [Bool.eq_iff_iff, List.isPrefixOf_iff_prefix, List.isPrefixOf_iff_prefix]
  refine ⟨fun h => ?_, fun h => h.trans (List.prefix_append t _)⟩
  rcases List.prefix_or_prefix_of_prefix h (List.prefix_append t (0 :: z)) with hpre | ⟨q, hq⟩
  · exact hpre
  · rw [← hq, List.prefix_append_right_inj] at h
    cases q with
    | nil => rw [← hq, List.append_nil]
    | cons c q =>
        obtain ⟨rfl, -⟩ := List.cons_prefix_cons.mp h
        have h0 : 0 ∈ name ++ [58] := hq ▸ List.mem_append_right t List.mem_cons_self
        simp [hname] at h0

/-- The lines that `dev_read` delivers: those at whose beginning the log goes on with the user's
    prefix. -/
def viewLines (index : Nat) (name : List UInt8) : List (List UInt8) → List (List UInt8)
  | [] => []
  | l :: ls =>
      if mine index name (l ++ ls.flatten) then l :: viewLines index name ls
      else viewLines index name ls

theorem viewLines_eq_filter (index : Nat) {name : List UInt8} (hname : 10 ∉ name)
    {ls : List (List UInt8)} (hls : ∀ l ∈ ls, LogLine l) :
    viewLines index name ls = ls.filter (mine index name) := by
  induction ls with
  | nil => rfl
  | cons l ls ih =>
      rw [viewLines, List.filter_cons, (hls l List.mem_cons_self).mine_append index hname,
        ih fun l' hl' => hls l' (List.mem_cons_of_mem l hl')]

section scan

variable (index : Nat) {name : List UInt8} (e : List UInt8) (left : Nat → Nat)

/-- The `if` of the loop on a line. -/
theorem copyLine_line (hname : 0 ∉ name) (l : List UInt8) {rest : List UInt8} (hrest : 0 ∈ rest)
    (n out : Nat) :
    copyLine index (name ++ 0 :: e) name.length n (l ++ rest) l.length out =
      if mine index name (l ++ rest) then
        (copy_to_user l 0 l.length n).map fun bytes => (out + l.length, [(out, bytes)])
      else some (out, []) := by
  unfold copyLine
  rw [isMine_eq index hname (List.mem_append_right l hrest) e, Option.bind_eq_bind,
    Option.bind_some, copy_to_user_append]
  split
  · exact (Option.map_eq_bind).symm
  · rfl

/-- One round of the loop. -/
theorem scan_line (hname : 0 ∉ name) {l rest : List UInt8} (hl : LogLine l) (hrest : 0 ∈ rest)
    (out : Nat) :
    scan index (name ++ 0 :: e) name.length left (l ++ rest) out =
      if mine index name (l ++ rest) then
        (copy_to_user l 0 l.length (left out)).bind fun bytes =>
          (scan index (name ++ 0 :: e) name.length left rest (out + l.length)).map fun r =>
            (r.1, (out, bytes) :: r.2)
      else scan index (name ++ 0 :: e) name.length left rest out := by
  obtain ⟨k, hnext, hk⟩ := hl.strchr_append rest
  obtain ⟨c, hc, hc0⟩ := hl.load_append rest
  rw [scan, hc]
  dsimp only
  rw [if_neg hc0]
  split
  · next h => rw [hnext] at h; cases h
  · next h => rw [hnext] at h; cases h
  · next k' h =>
      rw [hnext] at h
      cases h
      rw [hk, List.drop_left' rfl, copyLine_line index e hname l hrest]
      split
      · rw [Option.bind_map]
        rfl
      · simp

/-- The loop at the end of the log: it stops at the terminator, and faults when the last line
    has no newline. -/
theorem scan_rest {w : List UInt8} (hw : 10 ∉ w) (hw0 : 0 ∉ w) (user z : List UInt8)
    (un_l out : Nat) :
    scan index user un_l left (w ++ 0 :: z) out = if w = [] then some (out, []) else none := by
  have hnext : strchr 10 (w ++ 0 :: z) = some none := strchr_null hw0 hw (by decide) z
  rw [scan]
  cases w with
  | nil => rfl
  | cons c w =>
      have hc0 : c ≠ 0 := fun h => hw0 (h ▸ List.mem_cons_self)
      have hload : load (c :: w ++ 0 :: z) 0 = some c := rfl
      rw [hload, if_neg (List.cons_ne_nil c w)]
      dsimp only
      rw [if_neg hc0]
      split
      · rfl
      · rfl
      · next k h => rw [hnext] at h; cases h

/-- The loop on a log: the lines of the view are delivered, in order; it faults when the last
    line has no newline. -/
theorem scan_view (hname : 0 ∉ name) {ls : List (List UInt8)} {w : List UInt8}
    (hls : ∀ l ∈ ls, LogLine l) (hw : 10 ∉ w) (hw0 : 0 ∉ w) (z : List UInt8) (out : Nat) :
    scan index (name ++ 0 :: e) name.length left (ls.flatten ++ w ++ 0 :: z) out =
      if w = [] then deliver left out (viewLines index name ls) else none := by
  induction ls generalizing out with
  | nil =>
      rw [List.flatten_nil, List.nil_append, scan_rest index left hw hw0]
      rfl
  | cons l ls ih =>
      have hrest : 0 ∈ ls.flatten ++ w ++ 0 :: z := List.mem_append_right _ List.mem_cons_self
      have ih := ih fun l' hl' => hls l' (List.mem_cons_of_mem l hl')
      rw [List.flatten_cons, List.append_assoc, List.append_assoc, ← List.append_assoc _ w,
        scan_line index e left hname (hls l List.mem_cons_self) hrest]
      by_cases hnil : w = []
      · subst hnil
        rw [List.append_nil] at ih ⊢
        rw [← List.append_assoc, mine_append_nul index hname, if_pos rfl, viewLines]
        split
        · rw [ih, if_pos rfl, deliver]
        · rw [ih, if_pos rfl]
      · rw [if_neg hnil]
        split
        · rw [ih, if_neg hnil]
          cases copy_to_user l 0 l.length (left out) <;> rfl
        · rw [ih, if_neg hnil]

end scan

/-- `dev_read` with `bytes_read = 0`. -/
theorem dev_read_view {s : State} {index count : Nat} {left : Nat → Nat} {name e w z : List UInt8}
    {ls : List (List UInt8)} (hread : s.bytes_read = 0) (huser : s.user index = name ++ 0 :: e)
    (hname : 0 ∉ name) (hls : ∀ l ∈ ls, LogLine l) (hw : 10 ∉ w) (hw0 : 0 ∉ w)
    (hm : s.chat_buffer = some (ls.flatten ++ w ++ 0 :: z)) :
    dev_read s index count left =
      if w = [] then
        (deliver left 0 (viewLines index name ls)).map fun r =>
          ({ s with bytes_read := r.1 }, r.1, r.2)
      else none := by
  have hscan := scan_view index e left hname hls hw hw0 z 0
  unfold dev_read
  rw [huser, strlen_append hname, Option.bind_eq_bind, Option.bind_some,
    if_neg (not_not_intro hread), hm, Option.bind_eq_bind, Option.bind_some, hscan]
  split
  · cases deliver left 0 (viewLines index name ls) <;> rfl
  · rfl

/-- The same for a name without a newline, in terms of the lines alone. -/
theorem dev_read_text {s : State} {index count : Nat} {left : Nat → Nat} {name e w z : List UInt8}
    {ls : List (List UInt8)} (hread : s.bytes_read = 0) (huser : s.user index = name ++ 0 :: e)
    (hname : 0 ∉ name) (hname' : 10 ∉ name) (hls : ∀ l ∈ ls, LogLine l) (hw : 10 ∉ w)
    (hw0 : 0 ∉ w) (hm : s.chat_buffer = some (ls.flatten ++ w ++ 0 :: z)) :
    dev_read s index count left =
      if w = [] then
        (deliver left 0 (ls.filter (mine index name))).map fun r =>
          ({ s with bytes_read := r.1 }, r.1, r.2)
      else none := by
  rw [dev_read_view hread huser hname hls hw hw0 hm, viewLines_eq_filter index hname' hls]

/-- `dev_read` changes only `bytes_read`. -/
theorem dev_read_frame {s : State} {index count : Nat} {left : Nat → Nat}
    {r : State × Nat × List (Nat × List UInt8)} (h : dev_read s index count left = some r) :
    r.1 = { s with bytes_read := r.1.bytes_read } := by
  unfold dev_read at h
  rw [Option.bind_eq_bind, Option.bind_eq_some_iff] at h
  obtain ⟨n, -, h⟩ := h
  split at h
  · cases h
    rfl
  · simp only [Option.bind_eq_bind, Option.bind_eq_some_iff] at h
    obtain ⟨_, _, _, _, h⟩ := h
    cases h
    rfl

/-- `proc_read_stat` changes only its static variable. -/
theorem proc_read_stat_frame {s : State} {left : Nat} {r : State × Nat × List UInt8}
    (h : proc_read_stat s left = some r) : r.1 = { s with sent := r.1.sent } := by
  unfold proc_read_stat at h
  split at h
  · cases h
    rfl
  · simp only [Option.bind_eq_bind, Option.bind_eq_some_iff] at h
    obtain ⟨_, _, _, _, _, _, h⟩ := h
    cases h
    dsimp only

/-- A call that only reads. -/
def Act.Reads : Act → Prop
  | .read _ _ _ | .stat _ => True
  | _ => False

/-- Such a call changes nothing but the two cursors. -/
theorem step_reads {s s' : State} {a : Act} (h : step s a = some s') (ha : a.Reads) :
    s' = { s with bytes_read := s'.bytes_read, sent := s'.sent } := by
  cases a with
  | add buffer length left => exact ha.elim
  | write index buf count left => exact ha.elim
  | reset length parsed ok => exact ha.elim
  | read index count left =>
      obtain ⟨r, hr, rfl⟩ := Option.map_eq_some_iff.mp h
      rw [dev_read_frame hr]
  | stat left =>
      obtain ⟨r, hr, rfl⟩ := Option.map_eq_some_iff.mp h
      rw [proc_read_stat_frame hr]

/-! ## Complete copies -/

/-- Lines laid one after the other, from the offset `out` on. -/
def placed (out : Nat) : List (List UInt8) → List (Nat × List UInt8)
  | [] => []
  | l :: ls => (out, l) :: placed (out + l.length) ls

theorem deliver_complete (out : Nat) (ls : List (List UInt8)) :
    deliver (fun _ => 0) out ls = some (out + ls.flatten.length, placed out ls) := by
  induction ls generalizing out with
  | nil => rfl
  | cons l ls ih =>
      rw [deliver, copy_to_user_all, Option.bind_some, ih, List.flatten_cons, List.length_append,
        Nat.add_assoc]
      rfl

/-- The user's buffer after the copies. -/
def received (buf : List UInt8) (copies : List (Nat × List UInt8)) : Option (List UInt8) :=
  copies.foldlM (fun m copy => storeBytes m copy.1 copy.2) buf

theorem received_placed (done rest : List UInt8) {ls : List (List UInt8)}
    (h : ls.flatten.length ≤ rest.length) :
    received (done ++ rest) (placed done.length ls) =
      some (done ++ ls.flatten ++ rest.drop ls.flatten.length) := by
  induction ls generalizing done rest with
  | nil => simp [received, placed]
  | cons l ls ih =>
      rw [List.flatten_cons, List.length_append] at h
      have hroom : l.length ≤ rest.length := by omega
      have hstore := storeBytes_append done rest hroom
      have hnext := ih (done ++ l) (rest.drop l.length) (by rw [List.length_drop]; omega)
      unfold received at hnext ⊢
      rw [placed, List.foldlM_cons, hstore, Option.bind_eq_bind, Option.bind_some,
        ← List.length_append, hnext, List.drop_drop, List.flatten_cons, List.length_append,
        List.append_assoc done]

/-- With complete copies `dev_read` fills the user's buffer with the user's lines, one after the
    other, and returns their total length. -/
theorem dev_read_lines {s : State} {index : Nat} (count : Nat) {name e z : List UInt8}
    {ls : List (List UInt8)} (hread : s.bytes_read = 0) (huser : s.user index = name ++ 0 :: e)
    (hname : 0 ∉ name) (hname' : 10 ∉ name) (hls : ∀ l ∈ ls, LogLine l)
    (hm : s.chat_buffer = some (ls.flatten ++ 0 :: z)) :
    ∃ s' copies, dev_read s index count (fun _ => 0) =
        some (s', (ls.filter (mine index name)).flatten.length, copies) ∧
      ∀ buf, (ls.filter (mine index name)).flatten.length ≤ buf.length →
        received buf copies = some ((ls.filter (mine index name)).flatten ++
          buf.drop (ls.filter (mine index name)).flatten.length) := by
  have hread' : dev_read s index count (fun _ => 0) = _ :=
    dev_read_text (w := []) hread huser hname hname' hls List.not_mem_nil List.not_mem_nil
      (by rw [List.append_nil]; exact hm)
  rw [if_pos rfl, deliver_complete, Nat.zero_add] at hread'
  exact ⟨_, _, hread', fun buf hbuf => received_placed [] buf hbuf⟩

end KernelBasecamp.Chat
