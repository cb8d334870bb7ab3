/-
  Whether the loop of `dev_read` gets through the log.

  A round of the loop sets `in` to what `strchr` found, and the condition of the loop looks at
  `*in`. Behind a last line without a newline `in` is null. `dev_write` appends the payload as
  it comes, so the writer of the last record decides whether the next reader faults.

  * `scan_safe_iff`: in every state reached by writes that stay in the buffer, the loop is safe
    for a minor exactly when the last bytes written end in a newline, or nothing was written.
-/
import KernelBasecamp.Chat.Capacity
import KernelBasecamp.Chat.Forgery
import KernelBasecamp.Chat.Users

namespace KernelBasecamp.Chat

open Lib Lib.CMem

/-! ## The pointer of the loop -/

/-- `while (*in)` in the buffer `m`, from the offset `p` on: the offsets at which `*in` is
    looked at, up to that of the terminator. `in` is never null. -/
inductive Walk (m : List UInt8) : Nat → List Nat → Prop
  | stop {p : Nat} : m[p]? = some 0 → Walk m p [p]
  | line {p k : Nat} {c : UInt8} {ps : List Nat} : m[p]? = some c → c ≠ 0 →
      strchr 10 (m.drop p) = some (some k) → Walk m (p + (k + 1)) ps → Walk m p (p :: ps)

/-- The loop ends, `in` advances at every round and is not null, and all copies are made. -/
def ScanSafe (s : State) (index : Nat) : Prop :=
  ∀ un_l m, strlen (s.user index) = some un_l → s.chat_buffer = some m →
    (∃ ps, Walk m 0 ps ∧ ps.Pairwise (· < ·)) ∧
    (scan index (s.user index) un_l (fun _ => 0) m 0).isSome

theorem Walk.ascending {m : List UInt8} {p : Nat} {ps : List Nat} (h : Walk m p ps) :
    (∀ q ∈ ps, p ≤ q) ∧ ps.Pairwise (· < ·) := by
  induction h with
  | stop => exact ⟨by simp, List.pairwise_singleton _ _⟩
  | line _ _ _ _ ih =>
      refine ⟨fun q hq => ?_, List.pairwise_cons.mpr ⟨fun q hq => ?_, ih.2⟩⟩
      · rcases List.mem_cons.mp hq with rfl | hq
        · exact Nat.le_refl _
        · exact Nat.le_of_add_right_le (ih.1 q hq)
      · have := ih.1 q hq
        omega

/-- Over a line the loop goes on to the next one. -/
theorem walk_line_iff {pre l rest : List UInt8} (hl : LogLine l) :
    (∃ ps, Walk (pre ++ (l ++ rest)) pre.length ps) ↔
      ∃ ps, Walk (pre ++ (l ++ rest)) (pre ++ l).length ps := by
  obtain ⟨k, hnext, hk⟩ := hl.strchr_append rest
  obtain ⟨c, hc, hc0⟩ := hl.load_append rest
  have hhead : (pre ++ (l ++ rest))[pre.length]? = some c := by
    rw [List.getElem?_append_right (Nat.le_refl _), Nat.sub_self]
    exact hc
  have hdrop : (pre ++ (l ++ rest)).drop pre.length = l ++ rest := List.drop_left' rfl
  rw [List.length_append, ← hk]
  constructor
  · rintro ⟨ps, hps⟩
    cases hps with
    | stop h0 =>
        rw [hhead] at h0
        exact absurd (Option.some.inj h0) hc0
    | line _ _ hnext' hps =>
        rw [hdrop, hnext] at hnext'
        cases hnext'
        exact ⟨_, hps⟩
  · rintro ⟨ps, hps⟩
    exact ⟨_, .line hhead hc0 (by rw [hdrop, hnext]) hps⟩

/-- Behind the lines `in` becomes null unless the terminator is there. -/
theorem walk_rest_iff {w : List UInt8} (hw : 10 ∉ w) (hw0 : 0 ∉ w) (pre z : List UInt8) :
    (∃ ps, Walk (pre ++ (w ++ 0 :: z)) pre.length ps) ↔ w = [] := by
  have hdrop : (pre ++ (w ++ 0 :: z)).drop pre.length = w ++ 0 :: z := List.drop_left' rfl
  have hhead : (pre ++ (w ++ 0 :: z))[pre.length]? = (w ++ 0 :: z)[0]? := by
    rw [List.getElem?_append_right (Nat.le_refl _), Nat.sub_self]
  constructor
  · rintro ⟨ps, hps⟩
    cases hps with
    | stop h0 =>
        rw [hhead] at h0
        cases w with
        | nil => rfl
        | cons c w => exact absurd (Option.some.inj h0 ▸ List.mem_cons_self) hw0
    | line _ _ hnext _ =>
        rw [hdrop, strchr_null hw0 hw (by decide)] at hnext
        cases hnext
  · rintro rfl
    exact ⟨_, .stop hhead⟩

theorem walk_log_iff {ls : List (List UInt8)} {w : List UInt8} (hls : ∀ l ∈ ls, LogLine l)
    (hw : 10 ∉ w) (hw0 : 0 ∉ w) (pre z : List UInt8) :
    (∃ ps, Walk (pre ++ (ls.flatten ++ w ++ 0 :: z)) pre.length ps) ↔ w = [] := by
  induction ls generalizing pre with
  | nil => exact walk_rest_iff hw hw0 pre z
  | cons l ls ih =>
      rw [List.flatten_cons, List.append_assoc, List.append_assoc, ← List.append_assoc _ w,
        walk_line_iff (hls l List.mem_cons_self), ← List.append_assoc pre l]
      exact ih (fun l' hl' => hls l' (List.mem_cons_of_mem l hl')) (pre ++ l)

theorem scanSafe_iff {s : State} {ls : List (List UInt8)} {w : List UInt8} (h : HoldsLog s ls w)
    {k : Nat} (hk : (strlen (s.user k)).isSome) : ScanSafe s k ↔ w = [] := by
  obtain ⟨n, -, hm⟩ := h.buffer_eq
  obtain ⟨un_l, hlen⟩ := Option.isSome_iff_exists.mp hk
  obtain ⟨name, e, huser, hname, rfl⟩ := strlen_eq_some hlen
  have hwalk := walk_log_iff h.lines h.rest.1 h.rest.2 [] (List.replicate n 0)
  constructor
  · intro hsafe
    obtain ⟨⟨ps, hps, -⟩, -⟩ := hsafe _ _ hlen hm
    exact hwalk.mp ⟨ps, hps⟩
  · intro hw un_l m hun hbuf
    rw [hlen] at hun
    cases hun
    rw [hm] at hbuf
    cases hbuf
    obtain ⟨ps, hps⟩ := hwalk.mpr hw
    refine ⟨⟨ps, hps, hps.ascending.2⟩, ?_⟩
    rw [huser, List.replicate_succ,
      scan_view k e (fun _ => 0) hname h.lines h.rest.1 h.rest.2, if_pos hw, deliver_complete]
    rfl

/-! ## What the writers leave -/

/-- The bytes of the last record in the log after a call: what `copy_from_user` brought over. -/
def Act.wrote (last : Option (List UInt8)) : Act → Option (List UInt8)
  | .write index buf count left => if index = 0 then last else some (buf.take (count - left))
  | .reset _ (some n) _ => if n ≠ 0 then none else last
  | _ => last

/-- The bytes of the last record in the log, if there is one. -/
def lastWritten (acts : List Act) : Option (List UInt8) := acts.foldl Act.wrote none

theorem lastWritten_concat (acts : List Act) (a : Act) :
    lastWritten (acts ++ [a]) = a.wrote (lastWritten acts) := List.foldl_append

/-- A write brings no zero over and stays within the buffer; a reset gets the memory it asks
    for. -/
def Within (s : State) : Act → Prop
  | .write index buf count left => index = 0 ∨ 0 ∉ buf.take (count - left) ∧
      s.log.length + (s.name index).length + 2 + count < s.chat_buffer_size
  | .reset _ (some n) ok => n = 0 ∨ ok = true ∧ (n * 1024).toNat ≠ 0
  | _ => True

instance (s : State) (a : Act) : Decidable (Within s a) :=
  match a with
  | .write index buf count left =>
      inferInstanceAs (Decidable (index = 0 ∨ 0 ∉ buf.take (count - left) ∧
        s.log.length + (s.name index).length + 2 + count < s.chat_buffer_size))
  | .reset _ (some n) ok =>
      inferInstanceAs (Decidable (n = 0 ∨ ok = true ∧ (n * 1024).toNat ≠ 0))
  | .reset _ none _ => isTrue trivial
  | .add .. => isTrue trivial
  | .read .. => isTrue trivial
  | .stat .. => isTrue trivial

/-- The last bytes written, if any, end in a newline. -/
def Ended (last : Option (List UInt8)) : Prop := ∀ bytes ∈ last, bytes.getLast? = some 10

instance (last : Option (List UInt8)) : Decidable (Ended last) :=
  inferInstanceAs (Decidable (∀ bytes ∈ last, bytes.getLast? = some 10))

/-- The log is lines, and an unfinished one exactly when the last bytes written leave it so. -/
def Holds (s : State) (last : Option (List UInt8)) : Prop :=
  ∃ ls w, HoldsLog s ls w ∧ (w = [] ↔ Ended last)

theorem holds_fresh {s : State} (hpos : 0 < s.chat_buffer_size)
    (hm : s.chat_buffer = some (List.replicate s.chat_buffer_size 0)) : Holds s none :=
  ⟨[], [], holdsLog_fresh hpos hm, iff_of_true rfl fun _ h => nomatch h⟩

/-- A record without a newline at its end is not ended by the name and the colon before it. -/
theorem rest_message_iff (w name bytes : List UInt8) :
    (cut 10 (w ++ message name bytes)).2 = [] ↔ Ended (some bytes) := by
  have hlast : (w ++ message name bytes).getLast? = some (bytes.getLast?.getD 32) := by
    unfold message
    rw [literal_colon]
    cases bytes using List.reverseRecOn with
    | nil => simp
    | append_singleton bytes c =>
        rw [← List.append_assoc, ← List.append_assoc, List.getLast?_concat, List.getLast?_concat]
        rfl
  have hne : w ++ message name bytes ≠ [] := fun h => by rw [h] at hlast; cases hlast
  have hended : Ended (some bytes) ↔ bytes.getLast? = some 10 := by
    unfold Ended
    simp
  rw [cut_rest_eq_nil_iff, or_iff_right hne, hlast, hended]
  cases bytes.getLast? <;> simp

theorem Holds.write {s s' : State} {last : Option (List UInt8)} (h : Holds s last)
    {j count left : Nat} {buf : List UInt8} (hwithin : Within s (.write j buf count left))
    (hs : step s (.write j buf count left) = some s') :
    Holds s' ((Act.write j buf count left).wrote last) := by
  by_cases hj : j = 0
  · subst hj
    cases hs
    exact h
  · obtain ⟨h0, hfit⟩ := hwithin.resolve_left hj
    obtain ⟨ls, w, hlog, -⟩ := h
    obtain ⟨-, ⟨bytes, hb⟩, -⟩ := write_cases hj hs
    obtain ⟨hcopy, rfl⟩ := copy_from_user_eq_some.mp hb
    rw [hlog.log_eq] at hfit
    rw [Act.wrote, if_neg hj]
    refine ⟨_, _, hlog.append hj hb h0 ?_ hs, rest_message_iff w (s.name j) _⟩
    rw [message_length, List.length_take]
    omega

theorem Holds.reset {s s' : State} {last : Option (List UInt8)} (h : Holds s last)
    {length : Nat} {parsed : Option UInt64} {ok : Bool}
    (hwithin : Within s (.reset length parsed ok))
    (hs : step s (.reset length parsed ok) = some s') :
    Holds s' ((Act.reset length parsed ok).wrote last) := by
  cases parsed with
  | none =>
      cases hs
      exact h
  | some n =>
      by_cases hn : n = 0
      · subst hn
        cases hs
        exact h
      · obtain ⟨rfl, hsize⟩ := hwithin.resolve_left hn
        rw [step_reset s hn] at hs
        cases hs
        rw [Act.wrote, if_pos hn]
        unfold kmalloc
        rw [if_neg hsize, if_pos rfl]
        exact holds_fresh (Nat.pos_of_ne_zero hsize) rfl

/-- In every run the last bytes written tell whether the log ends in an unfinished line. -/
theorem holds_run {acts : List Act} {s : State} (hC : AllSteps step Within State.loaded acts)
    (hrun : run step State.loaded acts = some s) : Holds s (lastWritten acts) := by
  refine run_induct (fun acts s => Holds s (lastWritten acts)) ?_ ?_ hC hrun
  · exact holds_fresh (by decide) rfl
  · intro acts s a s' ih hwithin hs
    rw [lastWritten_concat]
    by_cases ha : a.Stores
    · cases a with
      | write => exact ih.write hwithin hs
      | reset => exact ih.reset hwithin hs
      | add | read | stat => exact ha.elim
    · have hwrote : a.wrote (lastWritten acts) = lastWritten acts := by
        cases a with
        | write | reset => exact absurd trivial ha
        | add | read | stat => rfl
      obtain ⟨hm, hsize⟩ := step_buffer ha hs
      obtain ⟨ls, w, hlog, hw⟩ := ih
      rw [hwrote]
      exact ⟨ls, w, hlog.congr hm hsize, hw⟩

/-! ## The names -/

/-- The last byte of the table of users is a zero, so that every row holds a string. -/
def Terminated (s : State) : Prop :=
  s.users.length = MAX_USERS * MAX_USER_NAME ∧ s.users.getLast? = some 0

theorem Terminated.strlen_user {s : State} (h : Terminated s) {k : Nat} (hk : k < MAX_USERS) :
    (strlen (s.user k)).isSome := by
  obtain ⟨hlen, hlast⟩ := h
  unfold MAX_USERS MAX_USER_NAME at *
  have hmem : 0 ∈ s.user k := by
    unfold State.user MAX_USER_NAME
    refine List.mem_of_getLast? ?_
    rw [List.getLast?_drop, if_neg (by omega)]
    exact hlast
  obtain ⟨n, hn⟩ := strlen_isSome.mpr hmem
  exact Option.isSome_of_eq_some hn

/-- add_user stores a terminator behind what it stores, and stays in the table. -/
theorem Terminated.step {s s' : State} {a : Act} (h : Terminated s) (hs : step s a = some s') :
    Terminated s' := by
  by_cases ha : ∀ buffer length left, a ≠ .add buffer length left
  · unfold Terminated
    rw [(step_users ha hs).1]
    exact h
  · push Not at ha
    obtain ⟨buffer, length, left, rfl⟩ := ha
    obtain ⟨r, hr, rfl⟩ := Option.map_eq_some_iff.mp hs
    rcases Nat.eq_zero_or_pos length with rfl | hpos
    · rw [proc_write_add_zero] at hr
      cases hr
    · obtain ⟨bytes, hb, -⟩ := Option.bind_eq_some_iff.mp hr
      rw [proc_write_add_eq hb hpos] at hr
      obtain ⟨users, husers, rfl⟩ := Option.map_eq_some_iff.mp hr
      refine ⟨(storeBytes_length husers).trans h.1, ?_⟩
      obtain ⟨-, rfl⟩ := storeBytes_eq_some husers
      have hlast := h.2
      dsimp only
      generalize hp : MAX_USER_NAME * s.user_count + (givenName bytes length ++ [0]).length = p
      by_cases hend : s.users.drop p = []
      · rw [hend, List.append_nil, ← List.append_assoc, List.getLast?_concat]
      · rw [List.getLast?_append_of_ne_nil _ hend, List.getLast?_drop, if_neg ?_]
        · exact hlast
        · exact fun hle => hend (List.drop_of_length_le hle)

theorem terminated_run {acts : List Act} {s : State}
    (hrun : run step State.loaded acts = some s) : Terminated s := by
  have hlast : State.loaded.users.getLast? = some 0 := by decide +kernel
  exact run_invariant Terminated ⟨registered_loaded.table, hlast⟩ (fun _ _ _ => Terminated.step)
    hrun

/-- For every log that writes within the buffer leave, and every minor: the loop of `dev_read`
    is safe exactly when the last bytes written, if any, end in a newline. -/
theorem scan_safe_iff {acts : List Act} {s : State} (hC : AllSteps step Within State.loaded acts)
    (hrun : run step State.loaded acts = some s) {k : Nat} (hk : k < MAX_USERS) :
    ScanSafe s k ↔ Ended (lastWritten acts) := by
  obtain ⟨ls, w, hlog, hw⟩ := holds_run hC hrun
  rw [scanSafe_iff hlog ((terminated_run hrun).strlen_user hk)]
  exact hw

/-- "hi" with a newline, written by the user a. -/
theorem scan_safe_iff_hi : ∃ s,
    run step State.loaded [.add [97, 10] 2 0, .write 1 [104, 105, 10] 3 0] = some s ∧
      ScanSafe s 1 := by
  obtain ⟨s, hs⟩ := Option.isSome_iff_exists.mp (by decide +kernel :
    (run step State.loaded [.add [97, 10] 2 0, .write 1 [104, 105, 10] 3 0]).isSome = true)
  exact ⟨s, hs, (scan_safe_iff (by decide +kernel) hs (by decide)).mpr (by decide)⟩

/-- "hi" without one: the loop of every minor faults. -/
theorem unended_line : ¬ ∀ (acts : List Act) (s : State) (k : Nat),
    AllSteps step Within State.loaded acts → run step State.loaded acts = some s →
    k < MAX_USERS → ScanSafe s k := by
  intro hall
  obtain ⟨s, hs⟩ := Option.isSome_iff_exists.mp (by decide +kernel :
    (run step State.loaded [.write 1 [104, 105] 2 0]).isSome = true)
  have hend : (run step State.loaded [.write 1 [104, 105] 2 0]).map
      (fun s => (strlen (s.user 0), s.chat_buffer)) =
      some (some 3, some ([58, 32, 104, 105] ++ 0 :: List.replicate 1019 0)) := by decide +kernel
  rw [hs] at hend
  obtain ⟨hlen, hm⟩ := Prod.mk.inj (Option.some.inj hend)
  obtain ⟨⟨ps, hps, -⟩, -⟩ := hall _ s 0 (by decide +kernel) hs (by decide) 3 _ hlen hm
  have hrest : 10 ∉ [58, 32, 104, (105 : UInt8)] := by decide
  have hnil := (walk_rest_iff hrest (by decide) [] _).mp ⟨ps, hps⟩
  cases hnil

end KernelBasecamp.Chat
