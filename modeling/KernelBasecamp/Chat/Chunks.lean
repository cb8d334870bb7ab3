/-
  Reading the chat with the count of the caller.

  `dev_read` looks at neither `count` nor `ppos`: the first call delivers the whole view, and
  the next one returns 0. What `copy_to_user` left uncopied is not looked at either, so the
  value returned is the length of the view and not what arrived.

  `session` is one client reading until a call returns 0; `Honoured` is what a reader expects of
  its chunks.

  * `chunks_iff`: in every state reached whose log is made of lines, the chunks are as expected
    exactly when the first call finds `bytes_read = 0`, has room for the view, and all its
    copies are complete; or when there is nothing to deliver.
-/
import KernelBasecamp.Chat.Readers
import KernelBasecamp.Chat.Scan

namespace KernelBasecamp.Chat

open Lib Lib.CMem

/-! ## A session -/

/-- The arguments of a read, and what its `copy_to_user` leaves at each offset. -/
structure Call where
  count : Nat
  left : Nat → Nat

/-- What a call did: the size asked for, the value returned, and the copies made. -/
structure Chunk where
  count : Nat
  ret : Nat
  copies : List (Nat × List UInt8)
  deriving DecidableEq, Repr

/-- The bytes that reached the user's buffer. -/
def Chunk.bytes (c : Chunk) : List UInt8 := delivered c.copies

/-- One client reads its minor until a call returns 0. -/
def session (index : Nat) : State → List Call → Option (List Chunk)
  | _, [] => some []
  | s, c :: cs =>
      (dev_read s index c.count c.left).bind fun r =>
        if r.2.1 = 0 then some [⟨c.count, r.2.1, r.2.2⟩]
        else (session index r.1 cs).map (⟨c.count, r.2.1, r.2.2⟩ :: ·)

/-- The chunks keep to the sizes asked for, say how long they are, and make up the view once a
    call has returned 0. -/
structure Honoured (view : List UInt8) (chunks : List Chunk) : Prop where
  bounded : ∀ c ∈ chunks, c.bytes.length ≤ c.count
  counted : ∀ c ∈ chunks, c.ret = c.bytes.length
  whole : ∀ c ∈ chunks.getLast?, c.ret = 0 → (chunks.map Chunk.bytes).flatten = view

/-- The log is the lines `ls`, each ended by a newline. -/
def HasLines (s : State) (ls : List (List UInt8)) : Prop :=
  (∀ l ∈ ls, LogLine l) ∧ ∃ z, s.chat_buffer = some (ls.flatten ++ 0 :: z)

/-- `copy_to_user` leaves at most what it was to copy. -/
def Possible (lines : List (List UInt8)) (c : Call) : Prop :=
  ∀ p ∈ placed 0 lines, c.left p.1 ≤ p.2.length

/-- The call starts afresh, has room for the view, and its copies are complete; or the view is
    empty. -/
def Served (s : State) (lines : List (List UInt8)) (c : Call) : Prop :=
  lines.flatten = [] ∨ s.bytes_read = 0 ∧ lines.flatten.length ≤ c.count ∧
    ∀ p ∈ placed 0 lines, c.left p.1 = 0

/-! ## Short copies -/

/-- What arrives of a copy. -/
def arrived (left : Nat → Nat) (p : Nat × List UInt8) : Nat × List UInt8 :=
  (p.1, p.2.take (p.2.length - left p.1))

theorem delivered_cons (p : Nat × List UInt8) (ps : List (Nat × List UInt8)) :
    delivered (p :: ps) = p.2 ++ delivered ps := rfl

theorem delivered_placed (out : Nat) (ls : List (List UInt8)) :
    delivered (placed out ls) = ls.flatten := by
  induction ls generalizing out with
  | nil => rfl
  | cons l ls ih => rw [placed, delivered_cons, ih, List.flatten_cons]

theorem deliver_eq {left : Nat → Nat} {out : Nat} {ls : List (List UInt8)}
    (h : ∀ p ∈ placed out ls, left p.1 ≤ p.2.length) :
    deliver left out ls =
      some (out + ls.flatten.length, (placed out ls).map (arrived left)) := by
  induction ls generalizing out with
  | nil => rfl
  | cons l ls ih =>
      obtain ⟨hl, hls⟩ := List.forall_mem_cons.mp h
      have hcopy : copy_to_user l 0 l.length (left out) =
          some (l.take (l.length - left out)) := by
        rw [copy_to_user_eq_some]
        exact ⟨⟨hl, by omega⟩, rfl⟩
      rw [deliver, hcopy, Option.bind_some, ih hls, List.flatten_cons, List.length_append,
        Nat.add_assoc]
      rfl

/-- Short copies deliver less, and nothing is missing only if all are complete. -/
theorem delivered_arrived {left : Nat → Nat} {ps : List (Nat × List UInt8)}
    (h : ∀ p ∈ ps, left p.1 ≤ p.2.length) :
    (delivered (ps.map (arrived left))).length ≤ (delivered ps).length ∧
      ((delivered ps).length = (delivered (ps.map (arrived left))).length ↔
        ∀ p ∈ ps, left p.1 = 0) := by
  induction ps with
  | nil => exact ⟨Nat.le_refl _, by simp⟩
  | cons p ps ih =>
      obtain ⟨hp, hps⟩ := List.forall_mem_cons.mp h
      obtain ⟨hle, hiff⟩ := ih hps
      have hlen : (arrived left p).2.length = p.2.length - left p.1 :=
        List.length_take_of_le (Nat.sub_le _ _)
      rw [List.map_cons, delivered_cons, delivered_cons, List.length_append, List.length_append,
        hlen, List.forall_mem_cons, ← hiff]
      constructor <;> omega

theorem arrived_complete {left : Nat → Nat} {ps : List (Nat × List UInt8)}
    (h : ∀ p ∈ ps, left p.1 = 0) : ps.map (arrived left) = ps := by
  have hid : ∀ p ∈ ps, arrived left p = id p := by
    intro p hp
    unfold arrived
    rw [h p hp, Nat.sub_zero, List.take_length]
    rfl
  rw [List.map_congr_left hid, List.map_id]

/-! ## What the calls do -/

section session

variable {s : State} {k : Nat} {ls : List (List UInt8)}

/-- The first call delivers the whole view. -/
theorem dev_read_first (hrow : (strlen (s.user k)).isSome) (hlog : HasLines s ls)
    (hread : s.bytes_read = 0) {c : Call} (hc : Possible (viewLines k (s.name k) ls) c) :
    dev_read s k c.count c.left =
      some ({ s with bytes_read := (viewLines k (s.name k) ls).flatten.length },
        (viewLines k (s.name k) ls).flatten.length,
        (placed 0 (viewLines k (s.name k) ls)).map (arrived c.left)) := by
  obtain ⟨n, hn⟩ := Option.isSome_iff_exists.mp hrow
  obtain ⟨name, e, huser, hname, rfl⟩ := strlen_eq_some hn
  obtain ⟨hls, z, hm⟩ := hlog
  rw [State.name_eq hname huser] at hc ⊢
  have hread' : dev_read s k c.count c.left = _ :=
    dev_read_view (w := []) hread huser hname hls List.not_mem_nil List.not_mem_nil
      (by rw [List.append_nil]; exact hm)
  rw [hread', if_pos rfl, deliver_eq hc, Nat.zero_add]
  rfl

/-- The call after one that delivered something. -/
theorem dev_read_again (hrow : (strlen (s.user k)).isSome) (hread : s.bytes_read ≠ 0)
    (count : Nat) (left : Nat → Nat) :
    dev_read s k count left = some ({ s with bytes_read := 0 }, 0, []) := by
  obtain ⟨n, hn⟩ := Option.isSome_iff_exists.mp hrow
  unfold dev_read
  rw [hn, Option.bind_eq_bind, Option.bind_some, if_pos hread]

/-- A chunk of a call that returns 0 and copies nothing. -/
def Chunk.Quiet (d : Chunk) : Prop := d.ret = 0 ∧ d.bytes = []

theorem honoured_quiet {view : List UInt8} {d : Chunk} (hd : d.Quiet) :
    Honoured view [d] ↔ view = [] := by
  obtain ⟨hret, hbytes⟩ := hd
  have hflat : ([d].map Chunk.bytes).flatten = [] := by
    rw [List.map_cons, List.map_nil, List.flatten_cons, hbytes]
    rfl
  constructor
  · intro h
    rw [← h.whole d rfl hret, hflat]
  · rintro rfl
    refine ⟨fun c hc => ?_, fun c hc => ?_, fun _ _ _ => hflat⟩
    · rw [List.mem_singleton.mp hc, hbytes]
      exact Nat.zero_le _
    · rw [List.mem_singleton.mp hc, hret, hbytes]
      rfl

/-- A session that does not start afresh gets nothing. -/
theorem session_again (hrow : (strlen (s.user k)).isSome) (hread : s.bytes_read ≠ 0)
    (c : Call) (cs : List Call) : session k s (c :: cs) = some [⟨c.count, 0, []⟩] := by
  rw [session, dev_read_again hrow hread]
  rfl

/-- A chunk that is followed only by a 0. -/
theorem honoured_first {view : List UInt8} {c : Chunk} {t : List Chunk}
    (ht : ∀ d ∈ t, d.Quiet) (hview : c.ret = c.bytes.length → c.bytes = view) :
    Honoured view (c :: t) ↔ c.bytes.length ≤ c.count ∧ c.ret = c.bytes.length := by
  constructor
  · intro h
    exact ⟨h.bounded c List.mem_cons_self, h.counted c List.mem_cons_self⟩
  · rintro ⟨hbound, hcount⟩
    refine ⟨List.forall_mem_cons.mpr ⟨hbound, fun d hd => ?_⟩,
      List.forall_mem_cons.mpr ⟨hcount, fun d hd => ?_⟩, fun _ _ _ => ?_⟩
    · rw [(ht d hd).2]
      exact Nat.zero_le _
    · rw [(ht d hd).1, (ht d hd).2]
      rfl
    · have hrest : (t.map Chunk.bytes).flatten = [] := by
        rw [List.flatten_eq_nil_iff]
        intro bytes hbytes
        obtain ⟨d, hd, rfl⟩ := List.mem_map.mp hbytes
        exact (ht d hd).2
      rw [List.map_cons, List.flatten_cons, hrest, List.append_nil, hview hcount]

/-- What follows a call that delivered something. -/
theorem session_quiet (hrow : (strlen (s.user k)).isSome) (hread : s.bytes_read ≠ 0)
    (calls : List Call) : ∃ t, session k s calls = some t ∧ ∀ d ∈ t, d.Quiet := by
  cases calls with
  | nil => exact ⟨[], rfl, (fun _ h => nomatch h)⟩
  | cons c cs =>
      refine ⟨_, session_again hrow hread c cs, fun d hd => ?_⟩
      rw [List.mem_singleton.mp hd]
      exact ⟨rfl, rfl⟩

/-- The chunk of a call that delivers these lines. -/
def firstChunk (lines : List (List UInt8)) (c : Call) : Chunk :=
  ⟨c.count, lines.flatten.length, (placed 0 lines).map (arrived c.left)⟩

/-- A session that starts afresh gets the view, and at most a 0 behind it. -/
theorem session_first (hrow : (strlen (s.user k)).isSome) (hlog : HasLines s ls)
    (hread : s.bytes_read = 0) {c : Call} (hc : Possible (viewLines k (s.name k) ls) c)
    (cs : List Call) : ∃ t,
      session k s (c :: cs) = some (firstChunk (viewLines k (s.name k) ls) c :: t) ∧
      ∀ d ∈ t, d.Quiet := by
  have hfirst := dev_read_first hrow hlog hread hc
  generalize viewLines k (s.name k) ls = lines at hc hfirst ⊢
  rw [session, hfirst, Option.bind_some]
  by_cases hempty : lines.flatten.length = 0
  · -- a view without bytes ends the session at once
    exact ⟨[], if_pos hempty, fun _ h => nomatch h⟩
  · obtain ⟨t, ht, hquiet⟩ :=
      session_quiet (s := { s with bytes_read := lines.flatten.length }) hrow hempty cs
    rw [if_neg hempty, ht]
    exact ⟨t, rfl, hquiet⟩

/-- The value of the first call tells what arrived exactly when all copies are complete. -/
theorem firstChunk_counted {lines : List (List UInt8)} {c : Call} (hc : Possible lines c) :
    (firstChunk lines c).bytes.length ≤ lines.flatten.length ∧
    ((firstChunk lines c).ret = (firstChunk lines c).bytes.length ↔
      ∀ p ∈ placed 0 lines, c.left p.1 = 0) ∧
    ((firstChunk lines c).ret = (firstChunk lines c).bytes.length →
      (firstChunk lines c).bytes = lines.flatten) := by
  obtain ⟨hle, hiff⟩ := delivered_arrived hc
  rw [delivered_placed] at hle hiff
  refine ⟨hle, hiff, fun hret => ?_⟩
  have hall := hiff.mp hret
  unfold firstChunk Chunk.bytes
  rw [arrived_complete hall, delivered_placed]

/-- The first chunk is as expected exactly when the call is served. -/
theorem firstChunk_served_iff (hread : s.bytes_read = 0) {lines : List (List UInt8)} {c : Call}
    (hc : Possible lines c) :
    (firstChunk lines c).bytes.length ≤ c.count ∧
        (firstChunk lines c).ret = (firstChunk lines c).bytes.length ↔ Served s lines c := by
  obtain ⟨hle, hcounted, -⟩ := firstChunk_counted hc
  have hret : (firstChunk lines c).ret = lines.flatten.length := rfl
  unfold Served
  rw [← hcounted, ← List.length_eq_zero_iff]
  constructor
  · rintro ⟨hbound, hcount⟩
    exact .inr ⟨hread, by omega, hcount⟩
  · rintro (hempty | ⟨-, hroom, hcount⟩)
    · exact ⟨by omega, by omega⟩
    · exact ⟨by omega, hcount⟩

theorem session_honoured (hrow : (strlen (s.user k)).isSome) (hlog : HasLines s ls)
    {calls : List Call} (hcalls : ∀ c ∈ calls, Possible (viewLines k (s.name k) ls) c) :
    ∃ chunks, session k s calls = some chunks ∧
      (Honoured (viewLines k (s.name k) ls).flatten chunks ↔
        ∀ c ∈ calls.head?, Served s (viewLines k (s.name k) ls) c) := by
  cases calls with
  | nil =>
      refine ⟨[], rfl, iff_of_true ⟨?_, ?_, ?_⟩ ?_⟩ <;> exact fun _ h => nomatch h
  | cons c cs =>
      have hc := hcalls c List.mem_cons_self
      have hhead : (∀ c' ∈ (c :: cs).head?, Served s (viewLines k (s.name k) ls) c') ↔
          Served s (viewLines k (s.name k) ls) c := by
        simp
      rw [hhead]
      by_cases hread : s.bytes_read = 0
      · obtain ⟨t, ht, hquiet⟩ := session_first hrow hlog hread hc cs
        refine ⟨_, ht, ?_⟩
        rw [honoured_first hquiet (firstChunk_counted hc).2.2]
        exact firstChunk_served_iff hread hc
      · refine ⟨_, session_again hrow hread c cs, ?_⟩
        rw [honoured_quiet ⟨rfl, rfl⟩]
        exact ⟨.inl, fun h => h.resolve_right fun hr => hread hr.1⟩

end session

/-- In every state reached whose log is made of lines, for every minor and every session: the
    chunks are what a reader expects exactly when the first call is served, or the view is
    empty. -/
theorem chunks_iff {acts : List Act} {s : State} (hrun : run step State.loaded acts = some s)
    {ls : List (List UInt8)} (hlog : HasLines s ls) {k : Nat} (hk : k < MAX_USERS)
    {calls : List Call} (hcalls : ∀ c ∈ calls, Possible (viewLines k (s.name k) ls) c) :
    ∃ chunks, session k s calls = some chunks ∧
      (Honoured (viewLines k (s.name k) ls).flatten chunks ↔
        ∀ c ∈ calls.head?, Served s (viewLines k (s.name k) ls) c) :=
  session_honoured ((terminated_run hrun).strlen_user hk) hlog hcalls

/-- Reads of `n` bytes with complete copies. -/
def readsOf (n : Nat) : List Call := [⟨n, fun _ => 0⟩, ⟨n, fun _ => 0⟩]

theorem possible_readsOf {n : Nat} (lines : List (List UInt8)) :
    ∀ c ∈ readsOf n, Possible lines c := by
  intro c hc p _
  rw [readsOf, List.mem_cons, List.mem_singleton, or_self] at hc
  rw [hc]
  exact Nat.zero_le _

theorem oneLine_log {s : State} (hs : run step State.loaded oneLine = some s) :
    HasLines s [[97, 58, 32, 120, 10]] ∧ s.name 1 = [97] ∧ s.bytes_read = 0 := by
  have hend : (run step State.loaded oneLine).map
      (fun s => (s.chat_buffer, s.name 1, s.bytes_read)) =
      some (some ([97, 58, 32, 120, 10] ++ 0 :: List.replicate 1018 0), [97], 0) := by
    decide +kernel
  rw [hs] at hend
  obtain ⟨hm, hend⟩ := Prod.mk.inj (Option.some.inj hend)
  obtain ⟨hname, hread⟩ := Prod.mk.inj hend
  exact ⟨⟨by decide, _, hm⟩, hname, hread⟩

/-- A read of 5 bytes has room for "a: x" and its newline. -/
theorem chunks_iff_five : ∃ s chunks, run step State.loaded oneLine = some s ∧
    session 1 s (readsOf 5) = some chunks ∧ Honoured [97, 58, 32, 120, 10] chunks := by
  obtain ⟨s, hs⟩ := Option.isSome_iff_exists.mp
    (by decide +kernel : (run step State.loaded oneLine).isSome = true)
  obtain ⟨hlog, hname, hread⟩ := oneLine_log hs
  have hk : 1 < MAX_USERS := by decide
  obtain ⟨chunks, hsession, hiff⟩ := chunks_iff hs hlog hk (possible_readsOf (n := 5) _)
  rw [hname] at hiff
  refine ⟨s, chunks, hs, hsession, hiff.mpr fun c hc => ?_⟩
  obtain rfl : ⟨5, fun _ => 0⟩ = c := Option.some.inj hc
  exact .inr ⟨hread, by decide, fun _ _ => rfl⟩

/-- A read of one byte gets all five. -/
theorem whole_view : ¬ ∀ (acts : List Act) (s : State) (ls : List (List UInt8)) (k : Nat)
    (calls : List Call) (chunks : List Chunk), run step State.loaded acts = some s →
    s.bytes_read = 0 → HasLines s ls → k < MAX_USERS →
    (∀ c ∈ calls, 0 < c.count ∧ ∀ out, c.left out = 0) → session k s calls = some chunks →
    Honoured (viewLines k (s.name k) ls).flatten chunks := by
  intro hall
  obtain ⟨s, hs⟩ := Option.isSome_iff_exists.mp
    (by decide +kernel : (run step State.loaded oneLine).isSome = true)
  obtain ⟨hlog, hname, hread⟩ := oneLine_log hs
  have hrow := (terminated_run hs).strlen_user (k := 1) (by decide)
  have hcalls : ∀ c ∈ readsOf 1, 0 < c.count ∧ ∀ out, c.left out = 0 := by
    intro c hc
    rw [readsOf, List.mem_cons, List.mem_singleton, or_self] at hc
    rw [hc]
    exact ⟨Nat.one_pos, fun _ => rfl⟩
  obtain ⟨chunks, hsession, hiff⟩ := session_honoured hrow hlog (possible_readsOf (n := 1) _)
  have hgood := hall oneLine s _ 1 _ chunks hs hread hlog (by decide) hcalls hsession
  have hserved := hiff.mp hgood _ rfl
  rw [hname] at hserved
  rcases hserved with hempty | ⟨-, hroom, -⟩
  · exact absurd hempty (by decide)
  · exact absurd hroom (by decide)

end KernelBasecamp.Chat
