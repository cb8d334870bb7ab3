/-
  The module refines the board.

  `Refines s b` connects the two: the rows of the user table hold the names, the buffer holds
  the text of the board and is zero behind it. `step_simulates`: every step of the board is a
  step of the module, which does not fault and leads to related states.

  * `views_run`: after every run that the board allows, a complete `dev_read` with
    `bytes_read = 0` fills the user's buffer with the view of the board, and `proc_read_stat`
    prints the length of the text and the number of users added.
-/
import KernelBasecamp.Chat.Board

namespace KernelBasecamp.Chat

open Lib Lib.CMem

structure Refines (s : State) (b : Board) : Prop where
  wf : b.Wf
  users_length : s.users.length = MAX_USERS * MAX_USER_NAME
  count : s.user_count = b.names.length
  row : ∀ k (hk : k < b.names.length), b.names[k] ++ [0] <+: s.user k
  size : s.chat_buffer_size = b.size
  buffer : s.chat_buffer = some (b.text ++ List.replicate (b.size - b.text.length) 0)

theorem refines_loaded : Refines State.loaded Board.init where
  wf := Board.wf_init
  users_length := by
    unfold State.loaded
    rw [List.length_append, List.length_replicate]
    decide
  count := rfl
  row := by
    intro k hk
    obtain rfl : k = 0 := Nat.lt_one_iff.mp hk
    exact ⟨List.replicate 508 0, rfl⟩
  size := rfl
  buffer := rfl

namespace Refines

variable {s : State} {b : Board}

/-- The row of a user, as a string in the table. -/
theorem user (h : Refines s b) {k : Nat} (hk : k < b.names.length) :
    ∃ e, s.user k = b.names[k] ++ 0 :: e := by
  obtain ⟨e, he⟩ := h.row k hk
  exact ⟨e, by rw [← he, List.append_assoc]; rfl⟩

/-- The buffer: the text, its terminator and zeros. -/
theorem buffer_eq (h : Refines s b) : ∃ n, n + 1 = b.size - b.text.length ∧
    s.chat_buffer = some (b.text ++ List.replicate (n + 1) 0) := by
  have hroom := h.wf.room
  refine ⟨b.size - b.text.length - 1, by omega, ?_⟩
  rw [h.buffer]
  congr 3
  omega

theorem name_ok (h : Refines s b) {k : Nat} (hk : k < b.names.length) : NameOk b.names[k] :=
  h.wf.names_ok _ (List.getElem_mem hk)

/-! ## The calls -/

/-- `proc_write_add` of a good name appends it to the table. -/
theorem add (h : Refines s b) {name : List UInt8} (last : UInt8) (hok : NameOk name)
    (hcount : b.names.length < MAX_USERS) :
    ∃ users, proc_write_add s (name ++ [last]) (name.length + 1) 0 =
        some ({ s with users, user_count := s.user_count + 1 }, name.length + 1) ∧
      users.length = MAX_USERS * MAX_USER_NAME ∧
      name ++ [0] <+: users.drop (MAX_USER_NAME * b.names.length) ∧
      ∀ k (hk : k < b.names.length),
        b.names[k] ++ [0] <+: users.drop (MAX_USER_NAME * k) := by
  obtain ⟨hshort, -, -, h0⟩ := hok
  have hlen : (name ++ [last]).length = name.length + 1 := List.length_append
  have hcopy : copy_from_user (name ++ [last]) (name.length + 1) 0 = some (name ++ [last]) := by
    rw [← hlen]
    exact copy_from_user_all _
  have hstore : store (name ++ [last]) ((name.length + 1 : Nat) - 1) 0 =
      some (name ++ 0 :: []) := store_at name [] last 0 (by omega)
  have hfit : MAX_USER_NAME * b.names.length + (name ++ [0]).length ≤ s.users.length := by
    rw [h.users_length, List.length_append, List.length_singleton]
    unfold MAX_USERS MAX_USER_NAME at *
    omega
  obtain ⟨users, husers⟩ := storeBytes_of_le hfit
  refine ⟨users, ?_, (storeBytes_length husers).trans h.users_length, storeBytes_at husers,
    fun k hk => ?_⟩
  · unfold proc_write_add
    simp only [Option.bind_eq_bind]
    rw [hcopy, Option.bind_some, hstore, Option.bind_some, strcpy_append h0, h.count, husers]
    rfl
  · have hshort' := (h.name_ok hk).1
    refine storeBytes_before husers (h.row k hk) ?_
    rw [List.length_append, List.length_singleton]
    unfold MAX_USER_NAME at *
    omega

/-- `dev_write` of a post appends its line. -/
theorem post (h : Refines s b) {k : Nat} {payload : List UInt8} (hpos : 0 < k)
    (hk : k < b.names.length)
    (hfit : b.text.length + (b.line (k, payload)).length + 1 ≤ b.size) :
    dev_write s k payload payload.length 0 =
      some (s.setBuffer (b.text ++ b.line (k, payload) ++
        List.replicate (b.size - (b.text.length + (b.line (k, payload)).length)) 0),
        payload.length) := by
  obtain ⟨n, hn, hm⟩ := h.buffer_eq
  obtain ⟨e, hu⟩ := h.user hk
  have hline : b.line (k, payload) = message b.names[k] payload := Board.line_eq hk
  rw [hline] at hfit ⊢
  rw [dev_write_zeros (Nat.ne_of_gt hpos) hm h.wf.text_nul hu (h.name_ok hk).2.2.2
    (copy_from_user_all payload) (by omega)]
  congr 6
  omega

/-- A complete `dev_read` with `bytes_read = 0` delivers the view. -/
theorem read (h : Refines s b) {k : Nat} (hk : k < b.names.length) (count : Nat)
    (hread : s.bytes_read = 0) :
    ∃ s' copies, dev_read s k count (fun _ => 0) =
        some (s', (b.view k).flatten.length, copies) ∧
      ∀ buf, (b.view k).flatten.length ≤ buf.length →
        received buf copies = some ((b.view k).flatten ++
          buf.drop (b.view k).flatten.length) := by
  obtain ⟨n, -, hm⟩ := h.buffer_eq
  obtain ⟨e, hu⟩ := h.user hk
  obtain ⟨-, -, hnewline, h0⟩ := h.name_ok hk
  rw [← h.wf.filter_mine hk]
  exact dev_read_lines count hread hu h0 hnewline h.wf.logLine hm

/-- A complete `proc_read_stat` with `sent = 0` prints the figures of the board. -/
theorem stat (h : Refines s b) (hsent : s.sent = 0) :
    ∃ s', proc_read_stat s 0 =
      some (s', (statText b.size b.text.length (b.names.length - 1)).length,
        statText b.size b.text.length (b.names.length - 1)) := by
  obtain ⟨n, -, hm⟩ := h.buffer_eq
  have hstr : strlen (b.text ++ List.replicate (n + 1) 0) = some b.text.length :=
    strlen_append h.wf.text_nul (List.replicate n 0)
  have hcount : size_sub s.user_count 1 = b.names.length - 1 := by
    have hpos := h.wf.names_pos
    have hle := h.wf.names_le
    unfold MAX_USERS at hle
    rw [h.count]
    exact size_sub_of_le (by omega) (by omega)
  unfold proc_read_stat
  simp only [Option.bind_eq_bind]
  rw [if_neg (not_not_intro hsent), hm, Option.bind_some, hstr, Option.bind_some, hcount, h.size,
    copy_to_user_all, Option.bind_some, Nat.sub_zero]
  exact ⟨_, rfl⟩

/-! ## Steps and runs -/

theorem congr {s' : State} (h : Refines s b) (husers : s'.users = s.users)
    (hcount : s'.user_count = s.user_count) (hm : s'.chat_buffer = s.chat_buffer)
    (hsize : s'.chat_buffer_size = s.chat_buffer_size) : Refines s' b := by
  refine ⟨h.wf, by rw [husers]; exact h.users_length, hcount.trans h.count, fun k hk => ?_,
    hsize.trans h.size, hm.trans h.buffer⟩
  unfold State.user
  rw [husers]
  exact h.row k hk

theorem add_step (h : Refines s b) {buffer : List UInt8} {length left : Nat} {b' : Board}
    (hb : b.step (.add buffer length left) = some b') :
    ∃ s', step s (.add buffer length left) = some s' ∧ Refines s' b' := by
  have hwf := Board.wf_step h.wf hb
  unfold Board.step at hb
  dsimp only at hb
  split at hb
  · next hc =>
      obtain ⟨rfl, rfl, hne, hcount, hok, -⟩ := hc
      cases hb
      obtain ⟨name, last, rfl⟩ : ∃ name last, buffer = name ++ [last] :=
        ⟨_, _, (List.dropLast_append_getLast hne).symm⟩
      rw [List.dropLast_concat] at hok hwf ⊢
      obtain ⟨users, hadd, hlen, hnew, hold⟩ := h.add last hok hcount
      have hlength : (name ++ [last]).length = name.length + 1 := List.length_append
      refine ⟨{ s with users, user_count := s.user_count + 1 }, ?_, hwf, hlen, ?_, ?_, h.size, ?_⟩
      · change (proc_write_add s _ _ _).map Prod.fst = _
        rw [hlength, hadd]
        rfl
      · rw [List.length_append, h.count]
        rfl
      · intro k hk
        rw [List.length_append, List.length_singleton] at hk
        by_cases hlast : k < b.names.length
        · rw [List.getElem_append_left hlast]
          exact hold k hlast
        · obtain rfl : k = b.names.length := by omega
          rw [List.getElem_concat_length rfl]
          exact hnew
      · unfold Board.text
        rw [h.wf.lines_add]
        exact h.buffer
  · cases hb

theorem post_step (h : Refines s b) {k : Nat} {payload : List UInt8} {count left : Nat}
    {b' : Board} (hb : b.step (.write k payload count left) = some b') :
    ∃ s', step s (.write k payload count left) = some s' ∧ Refines s' b' := by
  have hwf := Board.wf_step h.wf hb
  unfold Board.step at hb
  dsimp only at hb
  split at hb
  · next hc =>
      obtain ⟨rfl, rfl, hpos, hk, -, hfit⟩ := hc
      cases hb
      have hs : step s (.write k payload payload.length 0) = some _ :=
        congrArg (Option.map Prod.fst) (h.post hpos hk hfit)
      refine ⟨_, hs, hwf, h.users_length, h.count, h.row, h.size, ?_⟩
      dsimp only
      rw [State.setBuffer_chat_buffer, Board.text_post, List.length_append]
  · cases hb

theorem reset_step (h : Refines s b) {length : Nat} {parsed : Option UInt64} {ok : Bool}
    {b' : Board} (hb : b.step (.reset length parsed ok) = some b') :
    ∃ s', step s (.reset length parsed ok) = some s' ∧ Refines s' b' := by
  have hwf := Board.wf_step h.wf hb
  cases parsed with
  | none => cases hb
  | some n =>
      unfold Board.step at hb
      dsimp only at hb
      split at hb
      · next hc =>
          obtain ⟨rfl, hn, hpos⟩ := hc
          cases hb
          have hbuf : kmalloc (n * 1024).toNat true =
              some (List.replicate (n * 1024).toNat 0) := by
            unfold kmalloc
            rw [if_neg (Nat.ne_of_gt hpos), if_pos rfl]
          exact ⟨_, step_reset s hn length true, hwf, h.users_length, h.count, h.row, rfl, hbuf⟩
      · cases hb

/-- A complete read on any device does not fault, whatever `bytes_read` is. -/
theorem read_step (h : Refines s b) {k count : Nat} (hk : k < b.names.length) :
    ∃ s', step s (.read k count []) = some s' ∧ Refines s' b := by
  obtain ⟨r, hr⟩ : ∃ r, dev_read s k count (fun _ => 0) = some r := by
    by_cases hread : s.bytes_read = 0
    · obtain ⟨s', copies, hs, -⟩ := h.read hk count hread
      exact ⟨_, hs⟩
    · obtain ⟨e, hu⟩ := h.user hk
      unfold dev_read
      rw [hu, strlen_append (h.name_ok hk).2.2.2, Option.bind_eq_bind, Option.bind_some,
        if_pos hread]
      exact ⟨_, rfl⟩
  refine ⟨r.1, congrArg (Option.map Prod.fst) hr, ?_⟩
  rw [dev_read_frame hr]
  exact h.congr rfl rfl rfl rfl

theorem stat_step (h : Refines s b) : ∃ s', step s (.stat 0) = some s' ∧ Refines s' b := by
  obtain ⟨r, hr⟩ : ∃ r, proc_read_stat s 0 = some r := by
    by_cases hsent : s.sent = 0
    · obtain ⟨s', hs⟩ := h.stat hsent
      exact ⟨_, hs⟩
    · unfold proc_read_stat
      rw [if_pos hsent]
      exact ⟨_, rfl⟩
  refine ⟨r.1, congrArg (Option.map Prod.fst) hr, ?_⟩
  rw [proc_read_stat_frame hr]
  exact h.congr rfl rfl rfl rfl

/-- Every step that the board allows is a step of the module, which does not fault and leads to
    related states. -/
theorem step_simulates (h : Refines s b) {a : Act} {b' : Board} (hb : b.step a = some b') :
    ∃ s', step s a = some s' ∧ Refines s' b' := by
  cases a with
  | add buffer length left => exact h.add_step hb
  | write k payload count left => exact h.post_step hb
  | reset length parsed ok => exact h.reset_step hb
  | read k count left =>
      unfold Board.step at hb
      dsimp only at hb
      split at hb
      · next hc =>
          obtain ⟨hk, rfl⟩ := hc
          cases hb
          exact h.read_step hk
      · cases hb
  | stat left =>
      unfold Board.step at hb
      dsimp only at hb
      split at hb
      · next hc =>
          subst hc
          cases hb
          exact h.stat_step
      · cases hb

end Refines

/-- Every run that the board allows is a run of the module. -/
theorem refines_run {acts : List Act} {b : Board} (hb : run Board.step Board.init acts = some b) :
    ∃ s, run step State.loaded acts = some s ∧ Refines s b := by
  refine run_induct (C := fun _ _ => True)
    (fun acts b => ∃ s, run step State.loaded acts = some s ∧ Refines s b)
    ⟨State.loaded, rfl, refines_loaded⟩ ?_ (allSteps_true Board.init acts) hb
  rintro acts b a b' ⟨s, hs, h⟩ - hstep
  obtain ⟨s', hs', h'⟩ := h.step_simulates hstep
  refine ⟨s', ?_, h'⟩
  rw [run_concat, hs, Option.bind_some, hs']

def Act.isAdd : Act → Bool
  | .add .. => true
  | _ => false

/-- The number of add_user writes of a run. -/
def addCount (acts : List Act) : Nat := acts.countP Act.isAdd

theorem names_length_step {b b' : Board} {a : Act} (hb : b.step a = some b') :
    b'.names.length = b.names.length + if a.isAdd then 1 else 0 := by
  cases a with
  | add =>
      unfold Board.step at hb
      dsimp only at hb
      split at hb
      · cases hb
        exact List.length_append
      · cases hb
  | reset length parsed ok =>
      cases parsed with
      | none => cases hb
      | some n =>
          unfold Board.step at hb
          dsimp only at hb
          split at hb <;> cases hb
          rfl
  | write | read | stat =>
      unfold Board.step at hb
      dsimp only at hb
      split at hb <;> cases hb
      rfl

theorem names_length_run {acts : List Act} {b : Board}
    (hb : run Board.step Board.init acts = some b) : b.names.length = addCount acts + 1 := by
  refine run_induct (C := fun _ _ => True) (fun acts b => b.names.length = addCount acts + 1)
    rfl ?_ (allSteps_true Board.init acts) hb
  intro acts b a b' ih _ hstep
  unfold addCount at ih ⊢
  rw [names_length_step hstep, ih, List.countP_append, List.countP_singleton]
  omega

/-- After every run that the board allows, which the module follows without a fault: a complete
    read on a device, started with `bytes_read = 0`, fills the user's buffer with the lines of
    its view and returns their total length, and `proc_read_stat` prints the total length of
    the lines and the number of add_user writes. -/
theorem views_run {acts : List Act} {b : Board}
    (hb : run Board.step Board.init acts = some b) :
    ∃ s, run step State.loaded acts = some s ∧
      (∀ k count, k < b.names.length → s.bytes_read = 0 →
        ∃ s' copies, dev_read s k count (fun _ => 0) =
            some (s', (b.view k).flatten.length, copies) ∧
          ∀ buf, (b.view k).flatten.length ≤ buf.length →
            received buf copies = some ((b.view k).flatten ++
              buf.drop (b.view k).flatten.length)) ∧
      (s.sent = 0 → ∃ s', proc_read_stat s 0 =
        some (s', (statText b.size b.text.length (addCount acts)).length,
          statText b.size b.text.length (addCount acts))) := by
  obtain ⟨s, hs, h⟩ := refines_run hb
  refine ⟨s, hs, fun k count hk hread => h.read hk count hread, fun hsent => ?_⟩
  have hcount : b.names.length - 1 = addCount acts := by
    rw [names_length_run hb]
    rfl
  rw [← hcount]
  exact h.stat hsent

/-- Users a and b post "x" and "y"; a reads back "a: x". -/
def talkActs : List Act :=
  [.add [97, 10] 2 0, .add [98, 10] 2 0, .write 1 [120, 10] 2 0, .write 2 [121, 10] 2 0]

theorem views_run_talk : ∃ s s' copies, run step State.loaded talkActs = some s ∧
    dev_read s 1 10 (fun _ => 0) = some (s', 5, copies) ∧
    received (List.replicate 10 0) copies = some [97, 58, 32, 120, 10, 0, 0, 0, 0, 0] := by
  have hb : run Board.step Board.init talkActs =
      some ⟨[[97, 108, 108], [97], [98]], [(1, [120, 10]), (2, [121, 10])], 1024⟩ := by decide
  obtain ⟨s, hs, hviews, -⟩ := views_run hb
  have hread : (run step State.loaded talkActs).map State.bytes_read = some 0 := by
    decide +kernel
  rw [hs] at hread
  obtain ⟨s', copies, hcall, hbuf⟩ := hviews 1 10 (by decide) (Option.some.inj hread)
  exact ⟨s, s', copies, hs, hcall, hbuf (List.replicate 10 0) (by decide)⟩

end KernelBasecamp.Chat
