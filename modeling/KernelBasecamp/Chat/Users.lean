/-
  The table of users under any writes to add_user.

  `proc_write_add` looks at neither the length of what is written nor the number of users. A
  write of length 0 stores in front of `user_name`, the seventeenth user is stored behind the
  table, and a name of 32 bytes or more runs on into the row of the next user, which the next
  add_user overwrites (`long_name`).

  `Registrable` is the condition that nothing of this happens.

  * `registered_iff`: on a good table a write meets `Registrable` exactly when it stays inside
    its arrays, leaves a good table, and keeps the names of the earlier users.
  * `registered_run`: after a run whose add_user writes all meet it, the table is good.
-/
import KernelBasecamp.Chat.Log

namespace KernelBasecamp.Chat

open Lib Lib.CMem

/-- The table holds all users, each name with its terminator in its row. -/
structure Registered (s : State) : Prop where
  count : s.user_count ≤ MAX_USERS
  table : s.users.length = MAX_USERS * MAX_USER_NAME
  fits : ∀ k < s.user_count, (s.name k).length < MAX_USER_NAME

/-- The name that add_user reads: up to the first zero, and without the last byte. -/
def givenName (bytes : List UInt8) (length : Nat) : List UInt8 :=
  (bytes.take (length - 1)).takeWhile fun c => c != 0

/-- There is a byte for the terminator, a free row, and the name fits in it. -/
def Registrable (s : State) : Act → Prop
  | .add buffer length left => 0 < length ∧ s.user_count < MAX_USERS ∧
      ∀ bytes ∈ copy_from_user buffer length left,
        (givenName bytes length).length < MAX_USER_NAME
  | _ => True

instance (s : State) (a : Act) : Decidable (Registrable s a) :=
  match a with
  | .add buffer length left => inferInstanceAs (Decidable (0 < length ∧
      s.user_count < MAX_USERS ∧ ∀ bytes ∈ copy_from_user buffer length left,
        (givenName bytes length).length < MAX_USER_NAME))
  | .write .. => isTrue trivial
  | .reset .. => isTrue trivial
  | .read .. => isTrue trivial
  | .stat .. => isTrue trivial

/-- A row whose name fits starts with the name and its terminator. -/
theorem Registered.row {s : State} (h : Registered s) {k : Nat} (hk : k < s.user_count) :
    s.name k ++ [0] <+: s.user k := by
  have hfits := h.fits k hk
  have hcount := h.count
  have hlen : MAX_USER_NAME ≤ (s.user k).length := by
    unfold State.user
    rw [List.length_drop, h.table]
    unfold MAX_USERS MAX_USER_NAME at *
    omega
  rcases takeWhile_split (s.user k) with ⟨d, hd⟩ | hall
  · exact ⟨d, by rw [List.append_assoc]; exact hd.symm⟩
  · -- otherwise the name would fill the rest of the table
    have hname : (s.name k).length = (s.user k).length := congrArg List.length hall.symm
    omega

theorem name_of_row {s : State} {k : Nat} {name : List UInt8} (h0 : 0 ∉ name)
    (h : name ++ [0] <+: s.user k) : s.name k = name := by
  obtain ⟨e, he⟩ := h
  refine State.name_eq h0 (e := e) ?_
  rw [← he, List.append_assoc]
  rfl

/-- What `proc_write_add` does after a copy: it terminates the bytes and stores the name. -/
theorem proc_write_add_eq {s : State} {buffer bytes : List UInt8} {length left : Nat}
    (hb : copy_from_user buffer length left = some bytes) (hpos : 0 < length) :
    proc_write_add s buffer length left =
      (storeBytes s.users (MAX_USER_NAME * s.user_count) (givenName bytes length ++ [0])).map
        fun users => ({ s with users, user_count := s.user_count + 1 }, length - left) := by
  have hlen : bytes.length = length := (copy_from_user_length hb).2
  have hstore : store bytes ((length : Int) - 1) 0 = some (bytes.take (length - 1) ++ [0]) := by
    have hp : ((length : Int) - 1).toNat = length - 1 := by omega
    unfold store
    rw [hp, if_pos ⟨by omega, by omega⟩, List.set_eq_take_append_cons_drop, if_pos (by omega),
      List.drop_of_length_le (by omega)]
  have h0 : 0 ∉ givenName bytes length := takeWhile_no_nul _
  have hcopy : strcpy s.users (MAX_USER_NAME * s.user_count) (bytes.take (length - 1) ++ [0]) =
      storeBytes s.users (MAX_USER_NAME * s.user_count) (givenName bytes length ++ [0]) := by
    rcases takeWhile_split (bytes.take (length - 1)) with ⟨d, hd⟩ | hall
    · have hsrc : bytes.take (length - 1) ++ [0] =
          givenName bytes length ++ 0 :: (d ++ [0]) := by
        conv_lhs => rw [hd]
        rw [List.append_assoc]
        rfl
      rw [hsrc, strcpy_append h0]
    · have hsrc : bytes.take (length - 1) ++ [0] = givenName bytes length ++ 0 :: [] := by
        conv_lhs => rw [hall]
        rfl
      rw [hsrc, strcpy_append h0]
  unfold proc_write_add
  simp only [Option.bind_eq_bind]
  rw [hb, Option.bind_some, hstore, Option.bind_some, hcopy]
  exact Option.map_eq_bind.symm

/-- A write of length 0 stores in front of `user_name`. -/
theorem proc_write_add_zero (s : State) (buffer : List UInt8) (left : Nat) :
    proc_write_add s buffer 0 left = none := by
  unfold proc_write_add
  simp only [Option.bind_eq_bind]
  cases copy_from_user buffer 0 left <;> rfl

/-! ## One write -/

/-- What is stored leaves the earlier rows alone, and its own row holds the name. -/
theorem Registered.stored {s : State} (h : Registered s) {name users : List UInt8}
    (h0 : 0 ∉ name)
    (hs : storeBytes s.users (MAX_USER_NAME * s.user_count) (name ++ [0]) = some users) :
    (∀ k < s.user_count,
      State.name { s with users, user_count := s.user_count + 1 } k = s.name k) ∧
    State.name { s with users, user_count := s.user_count + 1 } s.user_count = name := by
  refine ⟨fun k hk => ?_, name_of_row h0 (storeBytes_at hs)⟩
  have hfits := h.fits k hk
  refine name_of_row (takeWhile_no_nul _) (storeBytes_before hs (h.row hk) ?_)
  rw [List.length_append, List.length_singleton]
  unfold MAX_USER_NAME at *
  omega

theorem registered_iff {s : State} (h : Registered s) {buffer bytes : List UInt8}
    {length left : Nat} (hb : copy_from_user buffer length left = some bytes) :
    Registrable s (.add buffer length left) ↔
      ∃ s', step s (.add buffer length left) = some s' ∧ Registered s' ∧
        ∀ k < s.user_count, s'.name k = s.name k := by
  have h0 : 0 ∉ givenName bytes length := takeWhile_no_nul _
  constructor
  · rintro ⟨hpos, hcount, hfit⟩
    have hname := hfit bytes hb
    have hroom : MAX_USER_NAME * s.user_count + (givenName bytes length ++ [0]).length ≤
        s.users.length := by
      rw [h.table, List.length_append, List.length_singleton]
      unfold MAX_USERS MAX_USER_NAME at *
      omega
    obtain ⟨users, husers⟩ := storeBytes_of_le hroom
    obtain ⟨hold, hnew⟩ := h.stored h0 husers
    refine ⟨{ s with users, user_count := s.user_count + 1 }, ?_,
      ⟨hcount, (storeBytes_length husers).trans h.table, fun k hk => ?_⟩, hold⟩
    · change (proc_write_add s buffer length left).map Prod.fst = _
      rw [proc_write_add_eq hb hpos, husers]
      rfl
    · rcases Nat.lt_succ_iff_lt_or_eq.mp hk with hlt | rfl
      · rw [hold k hlt]
        exact h.fits k hlt
      · rw [hnew]
        exact hname
  · rintro ⟨s', hs, hreg, -⟩
    obtain ⟨r, hr, rfl⟩ := Option.map_eq_some_iff.mp hs
    have hpos : 0 < length := by
      refine Nat.pos_of_ne_zero fun hzero => ?_
      rw [hzero, proc_write_add_zero] at hr
      cases hr
    rw [proc_write_add_eq hb hpos] at hr
    obtain ⟨users, husers, rfl⟩ := Option.map_eq_some_iff.mp hr
    refine ⟨hpos, hreg.count, fun bytes' hb' => ?_⟩
    obtain rfl : bytes = bytes' := Option.some.inj (hb.symm.trans hb')
    have hfits := hreg.fits s.user_count (Nat.lt_succ_self _)
    rw [(h.stored h0 husers).2] at hfits
    exact hfits

/-! ## Runs -/

/-- Calls other than add_user leave the table alone. -/
theorem step_users {s s' : State} {a : Act} (ha : ∀ buffer length left, a ≠ .add buffer length left)
    (h : step s a = some s') : s'.users = s.users ∧ s'.user_count = s.user_count := by
  cases a with
  | add buffer length left => exact absurd rfl (ha buffer length left)
  | write index buf count left =>
      by_cases hindex : index = 0
      · subst hindex
        rw [step_write_zero] at h
        cases h
        exact ⟨rfl, rfl⟩
      · obtain ⟨r, hr, rfl⟩ := Option.map_eq_some_iff.mp h
        obtain ⟨_, _, _, _, _, -, -, -, -, -, -, -, rfl⟩ := (dev_write_iff hindex).mp hr
        exact ⟨rfl, rfl⟩
  | reset length parsed ok =>
      cases h
      unfold proc_write_reset
      split
      · exact ⟨rfl, rfl⟩
      · split <;> exact ⟨rfl, rfl⟩
  | read index count left =>
      rw [step_reads h trivial]
      exact ⟨rfl, rfl⟩
  | stat left =>
      rw [step_reads h trivial]
      exact ⟨rfl, rfl⟩

theorem Registered.congr {s s' : State} (h : Registered s) (husers : s'.users = s.users)
    (hcount : s'.user_count = s.user_count) : Registered s' := by
  refine ⟨hcount ▸ h.count, husers ▸ h.table, fun k hk => ?_⟩
  rw [hcount] at hk
  unfold State.name State.user
  rw [husers]
  exact h.fits k hk

theorem registered_loaded : Registered State.loaded where
  count := by decide
  table := by
    unfold State.loaded
    rw [List.length_append, List.length_replicate]
    decide
  fits := by
    intro k hk
    obtain rfl : k = 0 := Nat.lt_one_iff.mp hk
    have hrow : [97, 108, 108] ++ [0] <+: State.loaded.user 0 := ⟨List.replicate 508 0, rfl⟩
    rw [name_of_row (by decide) hrow]
    decide

/-- After a run whose add_user writes all leave a byte for the terminator, find a free row and
    bring a name that fits in it, the table is good: it holds all users, each name with its
    terminator in its row. And a next add_user write keeps it good, stays inside `user_name` and
    `users` and keeps the names of the earlier users, exactly when it does so. -/
theorem registered_run {acts : List Act} {s : State}
    (hC : AllSteps step Registrable State.loaded acts)
    (hrun : run step State.loaded acts = some s) :
    Registered s ∧
    ∀ buffer length left, (copy_from_user buffer length left).isSome →
      (Registrable s (.add buffer length left) ↔
        ∃ s', step s (.add buffer length left) = some s' ∧ Registered s' ∧
          ∀ k < s.user_count, s'.name k = s.name k) := by
  have h : Registered s := by
    refine run_induct (fun _ s => Registered s) registered_loaded ?_ hC hrun
    intro _ s a s' hreg hfit hs
    by_cases ha : ∀ buffer length left, a ≠ .add buffer length left
    · obtain ⟨husers, hcount⟩ := step_users ha hs
      exact hreg.congr husers hcount
    · push Not at ha
      obtain ⟨buffer, length, left, rfl⟩ := ha
      obtain ⟨r, hr, -⟩ := Option.map_eq_some_iff.mp hs
      unfold proc_write_add at hr
      obtain ⟨bytes, hb, -⟩ := Option.bind_eq_some_iff.mp hr
      obtain ⟨t, ht, hgood, -⟩ := (registered_iff hreg hb).mp hfit
      rw [hs] at ht
      cases ht
      exact hgood
  refine ⟨h, fun buffer length left hcopy => ?_⟩
  obtain ⟨bytes, hb⟩ := Option.isSome_iff_exists.mp hcopy
  exact registered_iff h hb

/-- The user "a", and then "bc" beside it. -/
theorem registered_run_two :
    ∃ s s', run step State.loaded [.add [97, 10] 2 0] = some s ∧
      step s (.add [98, 99, 10] 3 0) = some s' ∧ Registered s' ∧
      s.name 1 = [97] ∧ s'.name 1 = [97] ∧ s'.name 2 = [98, 99] := by
  obtain ⟨s, hs⟩ := Option.isSome_iff_exists.mp
    (by decide +kernel : (run step State.loaded [.add [97, 10] 2 0]).isSome = true)
  have hfirst : (run step State.loaded [.add [97, 10] 2 0]).map
      (fun s => (s.user_count, s.name 1)) = some (2, [97]) := by decide +kernel
  have hsecond : ((run step State.loaded [.add [97, 10] 2 0]).bind fun s =>
      (step s (.add [98, 99, 10] 3 0)).map fun s' => s'.name 2) = some [98, 99] := by
    decide +kernel
  have hfree : ((run step State.loaded [.add [97, 10] 2 0]).map fun s =>
      decide (Registrable s (.add [98, 99, 10] 3 0))) = some true := by decide +kernel
  rw [hs] at hfirst hsecond hfree
  obtain ⟨hcount, hname⟩ := Prod.mk.inj (Option.some.inj hfirst)
  obtain ⟨s', hs', hgood, hkept⟩ := ((registered_run (by decide +kernel) hs).2 [98, 99, 10] 3 0
    (by decide +kernel)).mp (of_decide_eq_true (Option.some.inj hfree))
  rw [Option.bind_some, hs', Option.map_some, Option.some.injEq] at hsecond
  refine ⟨s, s', hs, hs', hgood, hname, ?_, hsecond⟩
  rw [hkept 1 (by rw [hcount]; decide), hname]

/-- A name of 33 bytes does not fit in its row. -/
theorem long_name : ¬ ∀ (acts : List Act) (s : State),
    (∀ a ∈ acts, ∃ buffer length left, a = .add buffer length left) →
    run step State.loaded acts = some s → Registered s := by
  intro hall
  obtain ⟨s, hs⟩ := Option.isSome_iff_exists.mp (by decide +kernel :
    (run step State.loaded [.add (List.replicate 34 65) 34 0]).isSome = true)
  have hlong : (run step State.loaded [.add (List.replicate 34 65) 34 0]).map
      (fun s => (s.user_count, (s.name 1).length)) = some (2, 33) := by decide +kernel
  rw [hs] at hlong
  obtain ⟨hcount, hlen⟩ := Prod.mk.inj (Option.some.inj hlong)
  have hreg := hall _ s (fun a ha => ⟨_, _, _, List.mem_singleton.mp ha⟩) hs
  have hfits := hreg.fits 1 (by rw [hcount]; decide)
  rw [hlen] at hfits
  exact absurd hfits (by decide)

end KernelBasecamp.Chat
