/-
  Whether other users can put words into a user's mouth.

  `dev_write` adds the name once per call, while `dev_read` takes every line of the log that
  starts with "name:" for one of the user's. A payload with a newline inside can therefore
  forge a line (`forged_line`).

  `Unforged` is the condition under which this does not happen: no line of another user's record
  starts with "name:", such a record starts at the beginning of a line, and the user's own
  bytes have no zero. `read_unforged`: in two runs that differ only in what other users write,
  and that both meet the condition, the user reads the same bytes.

  The proof is a simulation between the two runs. `Alike` relates the states: both logs are
  lines followed by the same unfinished line, and the lines with the user's prefix are the same.
-/
import KernelBasecamp.Chat.Log

namespace KernelBasecamp.Chat

open Lib Lib.CMem

/-! ## The log of a state as lines -/

/-- The buffer holds the lines `ls` and the unfinished line `w`, and zeros behind them. -/
structure HoldsLog (s : State) (ls : List (List UInt8)) (w : List UInt8) : Prop where
  lines : ∀ l ∈ ls, LogLine l
  rest : 10 ∉ w ∧ 0 ∉ w
  room : (ls.flatten ++ w).length < s.chat_buffer_size
  buffer : s.chat_buffer = some (ls.flatten ++ w ++
    List.replicate (s.chat_buffer_size - (ls.flatten ++ w).length) 0)

namespace HoldsLog

variable {s s' : State} {ls : List (List UInt8)} {w : List UInt8}

theorem text_nul (h : HoldsLog s ls w) : 0 ∉ ls.flatten ++ w := by
  intro h0
  rcases List.mem_append.mp h0 with h0 | h0
  · obtain ⟨l, hl, hmem⟩ := List.mem_flatten.mp h0
    exact (h.lines l hl).2 hmem
  · exact h.rest.2 h0

theorem buffer_eq (h : HoldsLog s ls w) :
    ∃ n, n + 1 = s.chat_buffer_size - (ls.flatten ++ w).length ∧
      s.chat_buffer = some (ls.flatten ++ w ++ List.replicate (n + 1) 0) := by
  have hroom := h.room
  have hbuf := h.buffer
  obtain ⟨n, hn⟩ : ∃ n, s.chat_buffer_size - (ls.flatten ++ w).length = n + 1 :=
    Nat.exists_eq_succ_of_ne_zero (by omega)
  rw [hn] at hbuf
  exact ⟨n, hn.symm, hbuf⟩

theorem log_eq (h : HoldsLog s ls w) : s.log = ls.flatten ++ w := by
  obtain ⟨n, -, hm⟩ := h.buffer_eq
  exact State.log_eq h.text_nul hm

theorem congr (h : HoldsLog s ls w) (hm : s'.chat_buffer = s.chat_buffer)
    (hsize : s'.chat_buffer_size = s.chat_buffer_size) : HoldsLog s' ls w := by
  refine ⟨h.lines, h.rest, hsize ▸ h.room, ?_⟩
  rw [hm, hsize]
  exact h.buffer

/-- A text without a zero is cut into lines of a log and a rest that is none. -/
theorem cut_logLines {t : List UInt8} (ht : 0 ∉ t) :
    (∀ l ∈ (cut 10 t).1, LogLine l) ∧ 10 ∉ (cut 10 t).2 ∧ 0 ∉ (cut 10 t).2 := by
  obtain ⟨hlines, hrest⟩ := cut_spec 10 t
  have hnul : 0 ∉ (cut 10 t).1.flatten ++ (cut 10 t).2 := by
    rw [cut_eq]
    exact ht
  refine ⟨fun l hl => ⟨hlines l hl, fun h0 => hnul (List.mem_append_left _ ?_)⟩, hrest,
    fun h0 => hnul (List.mem_append_right _ h0)⟩
  exact List.mem_flatten.mpr ⟨l, hl, h0⟩

/-- A write of bytes without a zero, with room for them, continues the unfinished line. Of a
    short copy only what arrived counts: the zeros behind it are those of the buffer. -/
theorem append (h : HoldsLog s ls w) {j count left pad : Nat} {buf bytes : List UInt8}
    (hj : j ≠ 0) (hb : copy_from_user buf count left = some (bytes ++ List.replicate pad 0))
    (h0 : 0 ∉ bytes)
    (hfit : (ls.flatten ++ w).length + (message (s.name j) bytes).length + pad <
      s.chat_buffer_size)
    (hs : step s (.write j buf count left) = some s') :
    HoldsLog s' (ls ++ (cut 10 (w ++ message (s.name j) bytes)).1)
      (cut 10 (w ++ message (s.name j) bytes)).2 := by
  obtain ⟨n, hn, hm⟩ := h.buffer_eq
  obtain ⟨r, hr, rfl⟩ := Option.map_eq_some_iff.mp hs
  obtain ⟨-, -, u, e, -, -, -, hu', hu, -⟩ := (dev_write_iff hj).mp hr
  rw [State.name_eq hu hu'] at hfit ⊢
  have hsplit : message u (bytes ++ List.replicate pad 0) =
      message u bytes ++ List.replicate pad 0 := (List.append_assoc _ _ _).symm
  have hlen : (message u (bytes ++ List.replicate pad 0)).length =
      (message u bytes).length + pad := by
    rw [hsplit, List.length_append, List.length_replicate]
  have hwrite := dev_write_zeros hj hm h.text_nul hu' hu hb (by omega)
  rw [hr, hlen, hsplit, ← List.append_assoc, List.append_assoc _ (List.replicate pad 0),
    List.replicate_append_replicate] at hwrite
  cases hwrite
  have hcut := cut_eq 10 (w ++ message u bytes)
  have hnul : 0 ∉ w ++ message u bytes := by
    unfold message
    rw [literal_colon]
    simp [h.rest.2, hu, h0]
  obtain ⟨hlines, hrest⟩ := cut_logLines hnul
  generalize cut 10 (w ++ message u bytes) = parts at hcut hlines hrest
  -- the new text is the old one followed by the record
  have htext : (ls ++ parts.1).flatten ++ parts.2 = ls.flatten ++ w ++ message u bytes := by
    rw [List.flatten_append, List.append_assoc, hcut, List.append_assoc]
  have hlength : (ls.flatten ++ w ++ message u bytes).length =
      (ls.flatten ++ w).length + (message u bytes).length := List.length_append
  refine ⟨fun l hl => ?_, hrest, ?_, ?_⟩
  · rcases List.mem_append.mp hl with hl | hl
    · exact h.lines l hl
    · exact hlines l hl
  · rw [htext, hlength, State.setBuffer_size]
    omega
  · dsimp only
    rw [htext, State.setBuffer_chat_buffer, State.setBuffer_size, hlength]
    congr 3
    omega

/-- The same for a complete copy. -/
theorem write (h : HoldsLog s ls w) {j count left : Nat} {buf bytes : List UInt8} (hj : j ≠ 0)
    (hb : copy_from_user buf count left = some bytes) (h0 : 0 ∉ bytes)
    (hfit : (ls.flatten ++ w).length + (message (s.name j) bytes).length < s.chat_buffer_size)
    (hs : step s (.write j buf count left) = some s') :
    HoldsLog s' (ls ++ (cut 10 (w ++ message (s.name j) bytes)).1)
      (cut 10 (w ++ message (s.name j) bytes)).2 := by
  have hb' : copy_from_user buf count left = some (bytes ++ List.replicate 0 0) := by
    rw [hb, List.replicate_zero, List.append_nil]
  exact h.append hj hb' h0 hfit hs

end HoldsLog

/-! ## Two runs -/

/-- The call is a write through another minor. -/
def Act.Foreign (k : Nat) : Act → Prop
  | .write j .. => j ≠ k
  | _ => False

/-- The same call, or writes through other minors. -/
def SameBut (k : Nat) (a b : Act) : Prop := a = b ∨ a.Foreign k ∧ b.Foreign k

/-- What is presupposed of a write: the log stays in the buffer, and what is written through
    another minor has no zero and ends in a newline. -/
def Fair (k : Nat) (s : State) : Act → Prop
  | .write j buf count left => j = 0 ∨ ∀ bytes ∈ copy_from_user buf count left,
      s.log.length + (message (s.name j) bytes).length < s.chat_buffer_size ∧
      (j ≠ k → 0 ∉ bytes ∧ bytes.getLast? = some 10)
  | _ => True

/-- A write through `k` has no zero; one through another minor starts a line, and none of its
    lines starts with "name:". -/
def Unforged (k : Nat) (name : List UInt8) (s : State) : Act → Prop
  | .write j buf count left => j = 0 ∨ ∀ bytes ∈ copy_from_user buf count left,
      if j = k then 0 ∉ bytes
      else (cut 10 s.log).2 = [] ∧
        ∀ l ∈ (cut 10 (message (s.name j) bytes)).1, ¬ name ++ [58] <+: l
  | _ => True

instance (k : Nat) (s : State) (a : Act) : Decidable (Fair k s a) :=
  match a with
  | .write j buf count left =>
      inferInstanceAs (Decidable (j = 0 ∨ ∀ bytes ∈ copy_from_user buf count left,
        s.log.length + (message (s.name j) bytes).length < s.chat_buffer_size ∧
        (j ≠ k → 0 ∉ bytes ∧ bytes.getLast? = some 10)))
  | .add .. => isTrue trivial
  | .reset .. => isTrue trivial
  | .read .. => isTrue trivial
  | .stat .. => isTrue trivial

instance (k : Nat) (name : List UInt8) (s : State) (a : Act) : Decidable (Unforged k name s a) :=
  match a with
  | .write j buf count left =>
      inferInstanceAs (Decidable (j = 0 ∨ ∀ bytes ∈ copy_from_user buf count left,
        if j = k then 0 ∉ bytes
        else (cut 10 s.log).2 = [] ∧
          ∀ l ∈ (cut 10 (message (s.name j) bytes)).1, ¬ name ++ [58] <+: l))
  | .add .. => isTrue trivial
  | .reset .. => isTrue trivial
  | .read .. => isTrue trivial
  | .stat .. => isTrue trivial

/-- The buffer has no byte at all: a null pointer, or the result of `kmalloc(0)`. -/
def Dead (s : State) : Prop := ∀ m, s.chat_buffer = some m → m = []

/-- The states of the two runs. -/
structure Alike (k : Nat) (name : List UInt8) (s t : State) : Prop where
  users : s.users = t.users
  count : s.user_count = t.user_count
  size : s.chat_buffer_size = t.chat_buffer_size
  logs : (s.chat_buffer = t.chat_buffer ∧ Dead s) ∨
    ∃ ls ls' w, HoldsLog s ls w ∧ HoldsLog t ls' w ∧
      ls.filter (mine k name) = ls'.filter (mine k name)

/-- A fresh buffer holds the empty log. -/
theorem holdsLog_fresh {s : State} (hpos : 0 < s.chat_buffer_size)
    (hm : s.chat_buffer = some (List.replicate s.chat_buffer_size 0)) : HoldsLog s [] [] where
  lines _ h := nomatch h
  rest := ⟨List.not_mem_nil, List.not_mem_nil⟩
  room := hpos
  buffer := hm

theorem alike_loaded (k : Nat) (name : List UInt8) : Alike k name State.loaded State.loaded := by
  have h : HoldsLog State.loaded [] [] := holdsLog_fresh (by decide) rfl
  exact ⟨rfl, rfl, rfl, .inr ⟨[], [], [], h, h, rfl⟩⟩

/-- A write needs a terminated buffer, and changes nothing else. -/
theorem write_cases {s s' : State} {j count left : Nat} {buf : List UInt8} (hj : j ≠ 0)
    (hs : step s (.write j buf count left) = some s') :
    ¬ Dead s ∧ (∃ bytes, copy_from_user buf count left = some bytes) ∧
      ∃ m, s' = s.setBuffer m := by
  obtain ⟨r, hr, rfl⟩ := Option.map_eq_some_iff.mp hs
  obtain ⟨t, d, u, e, bytes, hm, -, -, -, hb, -, -, rfl⟩ := (dev_write_iff hj).mp hr
  refine ⟨fun hdead => ?_, ⟨bytes, hb⟩, _, rfl⟩
  have hnil := hdead _ hm
  simp at hnil

theorem message_getLast {name bytes : List UInt8} (h : bytes.getLast? = some 10) :
    (message name bytes).getLast? = some 10 := by
  unfold message
  rw [List.getLast?_append_of_ne_nil _ fun hnil => by rw [hnil] at h; cases h]
  exact h

section step

variable {k : Nat} {name : List UInt8} {s s' t t' : State}

/-- A write through another minor leaves everything but the log alone, and the lines with the
    user's prefix. -/
theorem foreign_write (hk : k ≠ 0) {a : Act} (ha : a.Foreign k) (hfair : Fair k s a)
    (hun : Unforged k name s a) (hs : step s a = some s') :
    s'.users = s.users ∧ s'.user_count = s.user_count ∧
      s'.chat_buffer_size = s.chat_buffer_size ∧
      (Dead s → s'.chat_buffer = s.chat_buffer) ∧
      ∀ ls w, HoldsLog s ls w → ∃ ls', HoldsLog s' ls' w ∧
        ls'.filter (mine k name) = ls.filter (mine k name) := by
  cases a with
  | add | reset | read | stat => exact ha.elim
  | write j buf count left =>
      by_cases hj : j = 0
      · subst hj
        rw [step_write_zero] at hs
        cases hs
        exact ⟨rfl, rfl, rfl, fun _ => rfl, fun ls w h => ⟨ls, h, rfl⟩⟩
      · obtain ⟨hlive, ⟨bytes, hb⟩, m, hm⟩ := write_cases hj hs
        obtain ⟨hfit, hend⟩ := (hfair.resolve_left hj) bytes hb
        obtain ⟨h0, hlast⟩ := hend ha
        have hun := (hun.resolve_left hj) bytes hb
        rw [if_neg ha] at hun
        obtain ⟨hstart, hforge⟩ := hun
        refine ⟨by rw [hm]; rfl, by rw [hm]; rfl, by rw [hm]; rfl, fun hdead => absurd hdead hlive,
          fun ls w h => ?_⟩
        -- the record starts a line and ends one
        rw [h.log_eq] at hstart hfit
        rw [cut_flatten 10 (fun l hl => (h.lines l hl).1) h.rest.1] at hstart
        obtain rfl : w = [] := hstart
        have hnext := h.write hj hb h0 hfit hs
        rw [List.nil_append, cut_of_getLast 10 (message_getLast hlast)] at hnext
        refine ⟨_, hnext, ?_⟩
        have hnone : (cut 10 (message (s.name j) bytes)).1.filter (mine k name) = [] := by
          refine List.filter_eq_nil_iff.mpr fun l hl => ?_
          rw [mine_iff hk]
          exact hforge l hl
        rw [List.filter_append, hnone, List.append_nil]

/-- The same write through the user's minor continues the same unfinished line in both. -/
theorem own_write (h : Alike k name s t) {buf : List UInt8} {count left : Nat} (hk : k ≠ 0)
    (hfs : Fair k s (.write k buf count left)) (hft : Fair k t (.write k buf count left))
    (hun : Unforged k name s (.write k buf count left))
    (hs : step s (.write k buf count left) = some s')
    (ht : step t (.write k buf count left) = some t') : Alike k name s' t' := by
  obtain ⟨hlive, ⟨bytes, hb⟩, m, hm⟩ := write_cases hk hs
  obtain ⟨-, -, m', hm'⟩ := write_cases hk ht
  refine ⟨by rw [hm, hm']; exact h.users, by rw [hm, hm']; exact h.count,
    by rw [hm, hm']; exact h.size, ?_⟩
  have h0 := (hun.resolve_left hk) bytes hb
  rw [if_pos rfl] at h0
  have hfits := ((hfs.resolve_left hk) bytes hb).1
  have hfitt := ((hft.resolve_left hk) bytes hb).1
  have hname : s.name k = t.name k := by
    unfold State.name State.user
    rw [h.users]
  rcases h.logs with ⟨-, hdead⟩ | ⟨ls, ls', w, hls, hls', hview⟩
  · exact absurd hdead hlive
  · rw [hls.log_eq] at hfits
    rw [hls'.log_eq] at hfitt
    have hnext := hls.write hk hb h0 hfits hs
    have hnext' := hls'.write hk hb h0 hfitt ht
    rw [← hname] at hnext'
    refine .inr ⟨_, _, _, hnext, hnext', ?_⟩
    rw [List.filter_append, List.filter_append, hview]

/-- Calls that leave the log alone. -/
theorem Alike.congr (h : Alike k name s t) (husers : s'.users = t'.users)
    (hcount : s'.user_count = t'.user_count) (hms : s'.chat_buffer = s.chat_buffer)
    (hmt : t'.chat_buffer = t.chat_buffer) (hss : s'.chat_buffer_size = s.chat_buffer_size)
    (hst : t'.chat_buffer_size = t.chat_buffer_size) : Alike k name s' t' := by
  refine ⟨husers, hcount, by rw [hss, hst, h.size], ?_⟩
  rcases h.logs with ⟨hsame, hdead⟩ | ⟨ls, ls', w, hls, hls', hview⟩
  · refine .inl ⟨by rw [hms, hmt, hsame], fun m hm => hdead m ?_⟩
    rw [← hms]
    exact hm
  · exact .inr ⟨ls, ls', w, hls.congr hms hss, hls'.congr hmt hst, hview⟩

theorem alike_add (h : Alike k name s t) {buffer : List UInt8} {length left : Nat}
    (hs : step s (.add buffer length left) = some s')
    (ht : step t (.add buffer length left) = some t') : Alike k name s' t' := by
  obtain ⟨r, hr, rfl⟩ := Option.map_eq_some_iff.mp hs
  obtain ⟨q, hq, rfl⟩ := Option.map_eq_some_iff.mp ht
  unfold proc_write_add at hr hq
  simp only [Option.bind_eq_bind, Option.bind_eq_some_iff] at hr hq
  obtain ⟨u, hu, u', hu', users, husers, hr⟩ := hr
  obtain ⟨v, hv, v', hv', users', husers', hq⟩ := hq
  rw [hu] at hv
  cases hv
  rw [hu'] at hv'
  cases hv'
  rw [← h.users, ← h.count, husers] at husers'
  cases husers'
  cases hr
  cases hq
  exact h.congr rfl (by dsimp only; rw [h.count]) rfl rfl rfl rfl

theorem alike_reset (h : Alike k name s t) {length : Nat} {parsed : Option UInt64} {ok : Bool}
    (hs : step s (.reset length parsed ok) = some s')
    (ht : step t (.reset length parsed ok) = some t') : Alike k name s' t' := by
  cases parsed with
  | none =>
      cases hs
      cases ht
      exact h
  | some n =>
      by_cases hn : n = 0
      · subst hn
        cases hs
        cases ht
        exact h
      · -- both logs start afresh
        rw [step_reset _ hn] at hs ht
        cases hs
        cases ht
        refine ⟨h.users, h.count, rfl, ?_⟩
        unfold kmalloc
        by_cases hsize : (n * 1024).toNat = 0
        · left
          dsimp only
          rw [if_pos hsize]
          exact ⟨rfl, fun m hm => (Option.some.inj hm).symm⟩
        · cases ok with
          | false =>
              left
              dsimp only
              rw [if_neg hsize]
              exact ⟨rfl, fun m hm => nomatch hm⟩
          | true =>
              right
              rw [if_neg hsize, if_pos rfl]
              exact ⟨[], [], [], holdsLog_fresh (Nat.pos_of_ne_zero hsize) rfl,
                holdsLog_fresh (Nat.pos_of_ne_zero hsize) rfl, rfl⟩

/-- Two writes through other minors. -/
theorem alike_foreign (hk : k ≠ 0) {a b : Act} (h : Alike k name s t) (hfa : a.Foreign k)
    (hfb : b.Foreign k) (ha : Fair k s a ∧ Unforged k name s a)
    (hb : Fair k t b ∧ Unforged k name t b) (hs : step s a = some s')
    (ht : step t b = some t') : Alike k name s' t' := by
  obtain ⟨hus, hcs, hss, hds, hls⟩ := foreign_write hk hfa ha.1 ha.2 hs
  obtain ⟨hut, hct, hst, hdt, hlt⟩ := foreign_write hk hfb hb.1 hb.2 ht
  refine ⟨by rw [hus, hut, h.users], by rw [hcs, hct, h.count], by rw [hss, hst, h.size], ?_⟩
  rcases h.logs with ⟨hsame, hdead⟩ | ⟨ls, ls', w, hl, hl', hview⟩
  · have hdead' : Dead t := fun m hm => hdead m (hsame.trans hm)
    refine .inl ⟨by rw [hds hdead, hdt hdead', hsame], fun m hm => hdead m ?_⟩
    rw [← hds hdead]
    exact hm
  · obtain ⟨ls₁, h₁, hf₁⟩ := hls ls w hl
    obtain ⟨ls₂, h₂, hf₂⟩ := hlt ls' w hl'
    exact .inr ⟨ls₁, ls₂, w, h₁, h₂, by rw [hf₁, hf₂, hview]⟩

/-- A step of both runs keeps them alike. -/
theorem alike_step (hk : k ≠ 0) {a b : Act} (h : Alike k name s t) (hsame : SameBut k a b)
    (ha : Fair k s a ∧ Unforged k name s a) (hb : Fair k t b ∧ Unforged k name t b)
    (hs : step s a = some s') (ht : step t b = some t') : Alike k name s' t' := by
  by_cases hforeign : a.Foreign k ∧ b.Foreign k
  · exact alike_foreign hk h hforeign.1 hforeign.2 ha hb hs ht
  · obtain rfl : a = b := hsame.resolve_right hforeign
    cases a with
    | add buffer length left => exact alike_add h hs ht
    | reset length parsed ok => exact alike_reset h hs ht
    | write j buf count left =>
        obtain rfl : j = k := by
          by_contra hj
          exact hforeign ⟨hj, hj⟩
        exact own_write h hk ha.1 hb.1 ha.2 hs ht
    | read index count left =>
        rw [step_reads hs trivial, step_reads ht trivial]
        exact h.congr h.users h.count rfl rfl rfl rfl
    | stat left =>
        rw [step_reads hs trivial, step_reads ht trivial]
        exact h.congr h.users h.count rfl rfl rfl rfl

end step

/-! ## What the user reads -/

theorem dev_read_dead {s : State} {k count : Nat} {left : Nat → Nat} (hread : s.bytes_read = 0)
    (hdead : Dead s) : dev_read s k count left = none := by
  unfold dev_read
  rw [Option.bind_eq_bind, Option.bind_eq_none_iff]
  intro n _
  rw [if_neg (not_not_intro hread)]
  cases hm : s.chat_buffer with
  | none => rfl
  | some m =>
      rw [hdead m hm, Option.bind_eq_bind, Option.bind_some, scan]
      rfl

/-- Alike states let the user read the same, or fault alike. -/
theorem Alike.dev_read_eq {k count : Nat} {s t : State} {left : Nat → Nat}
    (h : Alike k (s.name k) s t) (hname : 10 ∉ s.name k) (hs : s.bytes_read = 0)
    (ht : t.bytes_read = 0) :
    (dev_read s k count left).map Prod.snd = (dev_read t k count left).map Prod.snd := by
  have huser : s.user k = t.user k := by
    unfold State.user
    rw [h.users]
  rcases h.logs with ⟨hsame, hdead⟩ | ⟨ls, ls', w, hl, hl', hview⟩
  · have hdead' : Dead t := fun m hm => hdead m (hsame.trans hm)
    rw [dev_read_dead hs hdead, dev_read_dead ht hdead']
  · by_cases hnul : 0 ∈ s.user k
    · obtain ⟨name, e, hu, hname0⟩ := List.eq_append_cons_of_mem hnul
      rw [State.name_eq hname0 hu] at hname hview
      obtain ⟨n, -, hm⟩ := hl.buffer_eq
      obtain ⟨n', -, hm'⟩ := hl'.buffer_eq
      rw [dev_read_text hs hu hname0 hname hl.lines hl.rest.1 hl.rest.2 hm,
        dev_read_text ht (huser ▸ hu) hname0 hname hl'.lines hl'.rest.1 hl'.rest.2 hm', hview]
      split
      · rw [Option.map_map, Option.map_map]
        rfl
      · rfl
    · -- the row of the user has no terminator
      have hstr : strlen (s.user k) = none := by
        rw [Option.eq_none_iff_forall_ne_some]
        exact fun n hn => hnul (strlen_isSome.mp ⟨n, hn⟩)
      unfold dev_read
      rw [← huser, hstr]
      rfl

/-- Two runs with the same calls, but for what is written through other minors: if both meet
    the condition, and the user's name has no newline, the user reads the same bytes. -/
theorem read_unforged {k : Nat} (hk : k ≠ 0) {acts₁ acts₂ : List Act} {s₁ s₂ : State}
    (hsame : List.Forall₂ (SameBut k) acts₁ acts₂)
    (hrun₁ : run step State.loaded acts₁ = some s₁)
    (hrun₂ : run step State.loaded acts₂ = some s₂)
    (hfair₁ : AllSteps step (fun s a => Fair k s a ∧ Unforged k (s₁.name k) s a)
      State.loaded acts₁)
    (hfair₂ : AllSteps step (fun s a => Fair k s a ∧ Unforged k (s₁.name k) s a)
      State.loaded acts₂)
    (hname : 10 ∉ s₁.name k) (hread₁ : s₁.bytes_read = 0) (hread₂ : s₂.bytes_read = 0)
    (count : Nat) (left : Nat → Nat) :
    (dev_read s₁ k count left).map Prod.snd = (dev_read s₂ k count left).map Prod.snd := by
  have h : Alike k (s₁.name k) s₁ s₂ :=
    run_rel (Alike k (s₁.name k)) (SameBut k)
      (fun _ _ _ _ _ _ hR hQ ha hb hs ht => alike_step hk hR hQ ha hb hs ht) hsame
      (alike_loaded k (s₁.name k)) hfair₁ hfair₂ hrun₁ hrun₂
  exact h.dev_read_eq hname hread₁ hread₂

/-- Users a and b are added, a writes "hi", and b writes the payload. -/
def chatActs (payload : List UInt8) : List Act :=
  [.add [97, 10] 2 0, .add [98, 10] 2 0, .write 1 [104, 105, 10] 3 0,
    .write 2 payload payload.length 0]

theorem sameBut_chatActs (p q : List UInt8) :
    List.Forall₂ (SameBut 1) (chatActs p) (chatActs q) := by
  have hforeign : (2 : Nat) ≠ 1 := by decide
  exact .cons (.inl rfl) (.cons (.inl rfl) (.cons (.inl rfl)
    (.cons (.inr ⟨hforeign, hforeign⟩) .nil)))

/-- b writes "x" in one run and "yy" in the other. -/
theorem read_unforged_chat : ∃ s₁ s₂, run step State.loaded (chatActs [120, 10]) = some s₁ ∧
    run step State.loaded (chatActs [121, 121, 10]) = some s₂ ∧
    (dev_read s₁ 1 10 fun _ => 0).map Prod.snd = (dev_read s₂ 1 10 fun _ => 0).map Prod.snd := by
  obtain ⟨s₁, hrun₁⟩ := Option.isSome_iff_exists.mp
    (by decide +kernel : (run step State.loaded (chatActs [120, 10])).isSome = true)
  obtain ⟨s₂, hrun₂⟩ := Option.isSome_iff_exists.mp
    (by decide +kernel : (run step State.loaded (chatActs [121, 121, 10])).isSome = true)
  have hend₁ : (run step State.loaded (chatActs [120, 10])).map
      (fun s => (s.name 1, s.bytes_read)) = some ([97], 0) := by decide +kernel
  have hend₂ : (run step State.loaded (chatActs [121, 121, 10])).map State.bytes_read =
      some 0 := by decide +kernel
  rw [hrun₁] at hend₁
  rw [hrun₂] at hend₂
  obtain ⟨hname, hread₁⟩ := Prod.mk.inj (Option.some.inj hend₁)
  refine ⟨s₁, s₂, hrun₁, hrun₂, read_unforged (by decide) (sameBut_chatActs _ _) hrun₁ hrun₂ ?_ ?_
    ?_ hread₁ (Option.some.inj hend₂) 10 _⟩
  · rw [hname]
    decide +kernel
  · rw [hname]
    decide +kernel
  · rw [hname]
    decide

/-- No two users have the same name. -/
def DistinctNames (s : State) : Prop :=
  ∀ i < s.user_count, ∀ j < s.user_count, s.name i = s.name j → i = j

instance (s : State) : Decidable (DistinctNames s) :=
  inferInstanceAs (Decidable (∀ i < s.user_count, ∀ j < s.user_count, s.name i = s.name j → i = j))

/-- b writes "x", a newline, and "a: y": user a reads a line that a did not write. -/
theorem forged_line : ¬ ∀ (k : Nat) (acts₁ acts₂ : List Act) (s₁ s₂ : State), k ≠ 0 →
    List.Forall₂ (SameBut k) acts₁ acts₂ →
    run step State.loaded acts₁ = some s₁ → run step State.loaded acts₂ = some s₂ →
    AllSteps step (Fair k) State.loaded acts₁ → AllSteps step (Fair k) State.loaded acts₂ →
    DistinctNames s₁ → s₁.bytes_read = 0 → s₂.bytes_read = 0 →
    (dev_read s₁ k 10 fun _ => 0).map Prod.snd = (dev_read s₂ k 10 fun _ => 0).map Prod.snd := by
  intro hall
  obtain ⟨s₁, hrun₁⟩ := Option.isSome_iff_exists.mp (by decide +kernel :
    (run step State.loaded (chatActs [120, 10, 97, 58, 32, 121, 10])).isSome = true)
  obtain ⟨s₂, hrun₂⟩ := Option.isSome_iff_exists.mp
    (by decide +kernel : (run step State.loaded (chatActs [120, 10])).isSome = true)
  have hend₁ : (run step State.loaded (chatActs [120, 10, 97, 58, 32, 121, 10])).map
      (fun s => (decide (DistinctNames s), s.bytes_read)) = some (true, 0) := by decide +kernel
  have hend₂ : (run step State.loaded (chatActs [120, 10])).map State.bytes_read = some 0 := by
    decide +kernel
  have hread₁ : (run step State.loaded (chatActs [120, 10, 97, 58, 32, 121, 10])).bind
      (fun s => (dev_read s 1 10 fun _ => 0).map Prod.snd) =
        some (11, [(0, [97, 58, 32, 104, 105, 10]), (6, [97, 58, 32, 121, 10])]) := by
    decide +kernel
  have hread₂ : (run step State.loaded (chatActs [120, 10])).bind
      (fun s => (dev_read s 1 10 fun _ => 0).map Prod.snd) =
        some (6, [(0, [97, 58, 32, 104, 105, 10])]) := by decide +kernel
  rw [hrun₁] at hend₁ hread₁
  rw [hrun₂] at hend₂ hread₂
  obtain ⟨hdistinct, hzero⟩ := Prod.mk.inj (Option.some.inj hend₁)
  have hsame := hall 1 _ _ s₁ s₂ (by decide) (sameBut_chatActs _ _) hrun₁ hrun₂
    (by decide +kernel) (by decide +kernel) (of_decide_eq_true hdistinct) hzero
    (Option.some.inj hend₂)
  rw [Option.bind_some] at hread₁ hread₂
  rw [hread₁, hread₂] at hsame
  exact absurd hsame (by decide)

end KernelBasecamp.Chat
