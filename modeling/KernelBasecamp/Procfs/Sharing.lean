/-
  The mailbox of exercise10/part01 under several clients.

  `Serial` is the invariant of the runs in which calls do not overlap: the events are those of
  the file as `Event.apply` describes it, and `Inside` says, for each point of a call, what the
  variables have to do with the bytes that are still to be read. `Serves` is the same seen from
  the one client that may be at work; its step lemma is `Serves.go`.

  * `serial_run`: the invariant over every such run.
  * `overtaken_run`: a write in the middle of a read puts the cursor behind the message.
  * `gives_away`: from there the reads deliver what lies behind the buffer.
-/
import KernelBasecamp.Procfs.Mailbox

namespace KernelBasecamp.Procfs.Mailbox

open Lib Lib.CMem

/-- The buffer lies in memory, which takes up no more than half of the addresses. -/
def Fits (d : Rw) : Prop := d.proc_buffer + BUFFER_SIZE ≤ d.mem.length ∧ d.mem.length ≤ 2 ^ 63

/-- `unread` is what the message holds behind the cursor and `n` bytes more. -/
structure Ready (d : Rw) (n : Nat) (unread : List UInt8) : Prop where
  pos_le : d.proc_msg_read_pos + n ≤ d.proc_msg_length
  length_le : d.proc_msg_length ≤ BUFFER_SIZE
  rest : unread = (d.mem.drop (d.proc_buffer + d.proc_msg_read_pos + n)).take
    (d.proc_msg_length - d.proc_msg_read_pos - n)

def Inside (d : Rw) (unread : List UInt8) : Point → Prop
  | .idle | .test _ => Ready d 0 unread
  | .tested _ msg_length => Ready d 0 unread ∧ msg_length = d.proc_msg_length
  | .limit asked => Ready d 0 unread ∧ unread.length < asked
  | .limited asked msg_length =>
      Ready d 0 unread ∧ unread.length < asked ∧ msg_length = d.proc_msg_length
  | .copy asked length => Ready d 0 unread ∧ length = min asked unread.length
  | .advance n => Ready d n unread
  | .advanced n read_pos => Ready d n unread ∧ read_pos = d.proc_msg_read_pos
  | .fill _ msg_length => msg_length ≤ BUFFER_SIZE
  | .size n => n ≤ BUFFER_SIZE ∧ unread = (d.mem.drop d.proc_buffer).take n
  | .rewind => d.proc_msg_length ≤ BUFFER_SIZE ∧
      unread = (d.mem.drop d.proc_buffer).take d.proc_msg_length

section

variable {d : Rw} {n : Nat} {unread : List UInt8}

theorem Ready.length_eq (h : Ready d n unread) (hfits : Fits d) :
    unread.length = d.proc_msg_length - d.proc_msg_read_pos - n := by
  have hpos := h.pos_le
  have hlen := h.length_le
  unfold Fits at hfits
  rw [h.rest, List.length_take, List.length_drop]
  omega

/-- The subtraction of `example_read` does not wrap. -/
theorem Ready.size_sub_eq (h : Ready d 0 unread) (hfits : Fits d) :
    size_sub d.proc_msg_length d.proc_msg_read_pos = unread.length := by
  have hpos : d.proc_msg_read_pos ≤ d.proc_msg_length := h.pos_le
  have hlen := h.length_le
  unfold BUFFER_SIZE at hlen
  rw [size_sub_of_le hpos (by omega), h.length_eq hfits, Nat.sub_zero]

/-- Handing out `n` bytes. -/
theorem Ready.drop (h : Ready d 0 unread) (hfits : Fits d) (hn : n ≤ unread.length) :
    (d.mem.drop (d.proc_buffer + d.proc_msg_read_pos)).take n = unread.take n ∧
      Ready d n (unread.drop n) := by
  have hlength := h.length_eq hfits
  have hpos := h.pos_le
  have hrest := h.rest
  rw [Nat.add_zero, Nat.sub_zero] at hrest
  refine ⟨?_, by omega, h.length_le, ?_⟩
  · rw [hrest, List.take_take, Nat.min_eq_left (by omega)]
  · rw [hrest, List.drop_take, List.drop_drop]

end

variable {ι : Type} [DecidableEq ι] {s s' : State ι} {c : ι} {unread : List UInt8}

/-- Only `c` may be in the middle of a call. -/
structure Serves (s : State ι) (c : ι) (unread : List UInt8) : Prop where
  fits : Fits s.dev
  replay : run Event.apply [] s.events = some unread
  others : ∀ d, d ≠ c → s.point d = .idle
  inside : Inside s.dev unread (s.point c)

structure Serial (s : State ι) (unread : List UInt8) : Prop where
  fits : Fits s.dev
  replay : run Event.apply [] s.events = some unread
  one : ∀ c d, s.point c ≠ .idle → s.point d ≠ .idle → c = d
  quiet : Quiet s → Ready s.dev 0 unread
  inside : ∀ c, s.point c ≠ .idle → Inside s.dev unread (s.point c)

omit [DecidableEq ι] in
theorem Serial.serves (h : Serial s unread) (hc : s.point c ≠ .idle) : Serves s c unread := by
  refine ⟨h.fits, h.replay, fun d hd => ?_, h.inside c hc⟩
  by_contra hbusy
  exact hd (h.one d c hbusy hc)

omit [DecidableEq ι] in
theorem Serial.serves_quiet (h : Serial s unread) (hq : Quiet s) (c : ι) : Serves s c unread := by
  refine ⟨h.fits, h.replay, fun d _ => hq d, ?_⟩
  rw [hq c]
  exact h.quiet hq

omit [DecidableEq ι] in
theorem Serves.serial (h : Serves s c unread) : Serial s unread := by
  have honly : ∀ d, s.point d ≠ .idle → d = c := by
    intro d hd
    by_contra hdc
    exact hd (h.others d hdc)
  refine ⟨h.fits, h.replay, ?_, fun hq => ?_, fun d hd => ?_⟩
  · intro d e hd he
    rw [honly d hd, honly e he]
  · have hinside := h.inside
    rwa [hq c] at hinside
  · rw [honly d hd]
    exact h.inside

/-! ## One access -/

omit [DecidableEq ι] in
theorem replay_concat {events : List (Event ι)} {e : Event ι} {unread unread' : List UInt8}
    (h : run Event.apply [] events = some unread) (he : e.apply unread = some unread') :
    run Event.apply [] (events ++ [e]) = some unread' := by
  rw [run_concat, h, Option.bind_some, he]

theorem Serves.moved (h : Serves s c unread) {d : Rw} {events : List (Event ι)}
    {unread' : List UInt8} {p : Point} (hfits : Fits d)
    (hreplay : run Event.apply [] events = some unread') (hp : Inside d unread' p) :
    Serves (State.goto ⟨d, s.point, events⟩ c p) c unread' := by
  refine ⟨hfits, hreplay, fun e he => ?_, ?_⟩
  · rw [goto_other he]
    exact h.others e he
  · rwa [goto_at]

/-- Another point, and nothing else. -/
theorem Serves.goto (h : Serves s c unread) {p : Point} (hp : Inside s.dev unread p) :
    Serves (s.goto c p) c unread := h.moved h.fits h.replay hp

theorem Serves.test (h : Serves s c unread) {length msg_length left : Nat}
    (hp : s.point c = .tested length msg_length) (hgo : go s c left = some s') :
    Serves s' c unread := by
  have hinside := h.inside
  rw [hp] at hinside
  obtain ⟨hready, rfl⟩ := hinside
  unfold go at hgo
  simp only [hp, hready.size_sub_eq h.fits] at hgo
  split at hgo
  · next hmore =>
      cases hgo
      exact h.goto ⟨hready, hmore⟩
  · next hless =>
      cases hgo
      exact h.goto ⟨hready, by omega⟩

theorem Serves.copy (h : Serves s c unread) {asked length left : Nat}
    (hp : s.point c = .copy asked length) (hgo : go s c left = some s') :
    ∃ unread', Serves s' c unread' := by
  have hinside := h.inside
  rw [hp] at hinside
  obtain ⟨hready, hlength⟩ := hinside
  unfold go at hgo
  simp only [hp, Option.bind_eq_bind, Option.bind_eq_some_iff] at hgo
  obtain ⟨bytes, hcopy, hgo⟩ := hgo
  obtain ⟨⟨hleft, -⟩, rfl⟩ := copy_to_user_eq_some.mp hcopy
  cases hgo
  obtain ⟨hbytes, hnext⟩ := hready.drop (n := length - left) h.fits (by omega)
  refine ⟨unread.drop (length - left), h.moved h.fits (replay_concat h.replay ?_) hnext⟩
  unfold Event.apply
  dsimp only
  rw [← hlength, if_pos hbytes]

theorem Serves.advance (h : Serves s c unread) {n read_pos left : Nat}
    (hp : s.point c = .advanced n read_pos) (hgo : go s c left = some s') :
    Serves s' c unread := by
  have hinside := h.inside
  rw [hp] at hinside
  obtain ⟨hready, rfl⟩ := hinside
  have hpos := hready.pos_le
  have hlen := hready.length_le
  unfold BUFFER_SIZE at hlen
  unfold go at hgo
  simp only [hp] at hgo
  cases hgo
  rw [size_add_of_lt (by omega)]
  refine h.moved h.fits h.replay ⟨hpos, hready.length_le, ?_⟩
  have hrest := hready.rest
  rw [Nat.add_assoc, Nat.sub_sub] at hrest
  exact hrest

theorem Serves.fill (h : Serves s c unread) {buffer : List UInt8} {msg_length left : Nat}
    (hp : s.point c = .fill buffer msg_length) (hgo : go s c left = some s') :
    ∃ unread', Serves s' c unread' := by
  have hinside := h.inside
  rw [hp] at hinside
  unfold go at hgo
  simp only [hp, Option.bind_eq_bind, Option.bind_eq_some_iff] at hgo
  obtain ⟨bytes, hcopy, mem, hstore, hgo⟩ := hgo
  cases hgo
  obtain ⟨hleft, hbytes⟩ := copy_from_user_length hcopy
  obtain ⟨hroom, hmem⟩ := storeBytes_eq_some hstore
  refine ⟨_, h.moved ?_ (replay_concat h.replay rfl) ⟨(Nat.sub_le _ _).trans hinside, ?_⟩⟩
  · have hfits := h.fits
    unfold Fits at hfits ⊢
    rw [storeBytes_length hstore]
    exact hfits
  · have hat : (s.dev.mem.take s.dev.proc_buffer).length = s.dev.proc_buffer := by
      rw [List.length_take]
      omega
    rw [hmem, List.append_assoc, List.drop_append_of_le_length (by rw [hat]),
      List.drop_of_length_le (by rw [hat]), List.nil_append,
      List.take_append_of_le_length (by omega)]

theorem Serves.size (h : Serves s c unread) {n left : Nat} (hp : s.point c = .size n)
    (hgo : go s c left = some s') : Serves s' c unread := by
  have hinside := h.inside
  rw [hp] at hinside
  unfold go at hgo
  simp only [hp] at hgo
  cases hgo
  exact h.moved h.fits h.replay hinside

theorem Serves.rewind (h : Serves s c unread) {left : Nat} (hp : s.point c = .rewind)
    (hgo : go s c left = some s') : Serves s' c unread := by
  have hinside := h.inside
  rw [hp] at hinside
  unfold go at hgo
  simp only [hp] at hgo
  cases hgo
  exact h.moved h.fits h.replay ⟨Nat.zero_le _, hinside.1, hinside.2⟩

theorem Serves.go (h : Serves s c unread) {left : Nat} (hgo : go s c left = some s') :
    ∃ unread', Serves s' c unread' := by
  have hinside := h.inside
  cases hp : s.point c with
  | tested length msg_length => exact ⟨unread, h.test hp hgo⟩
  | copy asked length => exact h.copy hp hgo
  | advanced n read_pos => exact ⟨unread, h.advance hp hgo⟩
  | fill buffer msg_length => exact h.fill hp hgo
  | size n => exact ⟨unread, h.size hp hgo⟩
  | rewind => exact ⟨unread, h.rewind hp hgo⟩
  | idle =>
      unfold Mailbox.go at hgo
      simp only [hp] at hgo
      cases hgo
  | test length =>
      rw [hp] at hinside
      unfold Mailbox.go at hgo
      simp only [hp] at hgo
      cases hgo
      exact ⟨unread, h.goto ⟨hinside, rfl⟩⟩
  | limit asked =>
      rw [hp] at hinside
      unfold Mailbox.go at hgo
      simp only [hp] at hgo
      cases hgo
      exact ⟨unread, h.goto ⟨hinside.1, hinside.2, rfl⟩⟩
  | limited asked msg_length =>
      rw [hp] at hinside
      obtain ⟨hready, hmore, rfl⟩ := hinside
      unfold Mailbox.go at hgo
      simp only [hp, hready.size_sub_eq h.fits] at hgo
      cases hgo
      exact ⟨unread, h.goto ⟨hready, by omega⟩⟩
  | advance n =>
      rw [hp] at hinside
      unfold Mailbox.go at hgo
      simp only [hp] at hgo
      cases hgo
      exact ⟨unread, h.goto ⟨hinside, rfl⟩⟩

/-- A call in progress can go on. -/
theorem Serves.progress (h : Serves s c unread) (hc : s.point c ≠ .idle) :
    ∃ left s', Mailbox.go s c left = some s' := by
  have hinside := h.inside
  have hfits := h.fits
  unfold Fits at hfits
  unfold Mailbox.go
  cases hp : s.point c with
  | idle => exact absurd hp hc
  | copy asked length =>
      rw [hp] at hinside
      obtain ⟨hready, hlength⟩ := hinside
      have hroom := hready.length_eq h.fits
      have hpos := hready.pos_le
      have hlen := hready.length_le
      have hcopy := copy_to_user_eq_some.mpr ⟨⟨Nat.zero_le length, show s.dev.proc_buffer +
        s.dev.proc_msg_read_pos + length ≤ s.dev.mem.length by omega⟩, rfl⟩
      refine ⟨0, ?_⟩
      simp only [hcopy, Option.bind_eq_bind, Option.bind_some]
      exact ⟨_, rfl⟩
  | fill buffer msg_length =>
      rw [hp] at hinside
      have hinside : msg_length ≤ BUFFER_SIZE := hinside
      refine ⟨msg_length, ?_⟩
      have hcopy : copy_from_user buffer msg_length msg_length =
          some (List.replicate msg_length 0) := by
        rw [copy_from_user_eq_some, Nat.sub_self]
        exact ⟨⟨Nat.le_refl _, Nat.zero_le _⟩, rfl⟩
      have hstore : s.dev.proc_buffer + (List.replicate msg_length (0 : UInt8)).length ≤
          s.dev.mem.length := by
        rw [List.length_replicate]
        omega
      unfold storeBytes
      simp only [hcopy, Option.bind_eq_bind, Option.bind_some, if_pos hstore]
      exact ⟨_, rfl⟩
  | tested length msg_length =>
      dsimp only
      split
      · exact ⟨0, _, rfl⟩
      · exact ⟨0, _, rfl⟩
  | test length | limit asked | limited asked msg_length | advance n | advanced n read_pos
  | size n | rewind => exact ⟨0, _, rfl⟩

/-! ## Runs in which calls do not overlap -/

theorem Serial.step {a : Act ι} (h : Serial s unread) (hC : Alone s a)
    (hs : Mailbox.step s a = some s') : ∃ unread', Serial s' unread' := by
  cases a with
  | read c length =>
      obtain ⟨hc, hs⟩ := Option.ite_none_right_eq_some.mp hs
      cases hs
      have hserves := h.serves_quiet hC c
      exact ⟨unread, (hserves.goto (p := .test length) (h.quiet hC)).serial⟩
  | write c buffer length =>
      obtain ⟨hc, hs⟩ := Option.ite_none_right_eq_some.mp hs
      cases hs
      have hserves := h.serves_quiet hC c
      refine ⟨unread, (hserves.goto ?_).serial⟩
      show (if length > BUFFER_SIZE then BUFFER_SIZE else length) ≤ BUFFER_SIZE
      split <;> omega
  | go c left =>
      have hc : s.point c ≠ .idle := by
        intro hidle
        change Mailbox.go s c left = some s' at hs
        unfold Mailbox.go at hs
        simp only [hidle] at hs
        cases hs
      obtain ⟨unread', h'⟩ := (h.serves hc).go hs
      exact ⟨unread', h'.serial⟩

omit [DecidableEq ι] in
theorem serial_init {kmalloc : List UInt8 × Nat} {dev : Rw}
    (hload : create_buffer (some kmalloc) = .ok dev)
    (hroom : kmalloc.2 + BUFFER_SIZE ≤ kmalloc.1.length) (hsize : kmalloc.1.length ≤ 2 ^ 63) :
    Serial (State.init dev : State ι) [] := by
  cases hload
  exact ⟨⟨hroom, hsize⟩, rfl, fun _ _ hc => absurd rfl hc,
    fun _ => ⟨Nat.le_refl _, Nat.zero_le _, rfl⟩, fun _ hc => absurd rfl hc⟩

theorem serial_run {s₀ : State ι} (h : Serial s₀ []) {acts : List (Act ι)}
    (hC : AllSteps Mailbox.step Alone s₀ acts) (hrun : run Mailbox.step s₀ acts = some s) :
    ∃ unread, Serial s unread := by
  refine run_induct (fun _ s => ∃ unread, Serial s unread) ⟨[], h⟩ ?_ hC hrun
  rintro _ s a s' ⟨unread, h⟩ hC hs
  exact h.step hC hs

/-! ## Runs in which they do -/

/-- A read that is not limited and gets all it asks for, up to the store of the cursor. -/
theorem advanced_run {length : Nat} (hc : s.point c = .idle)
    (hall : length ≤ size_sub s.dev.proc_msg_length s.dev.proc_msg_read_pos)
    (hroom : s.dev.proc_buffer + s.dev.proc_msg_read_pos + length ≤ s.dev.mem.length) :
    ∃ m, run Mailbox.step s [.read c length, .go c 0, .go c 0, .go c 0, .go c 0] = some m ∧
      m.dev = s.dev ∧
      m.point = Function.update s.point c (.advanced length s.dev.proc_msg_read_pos) ∧
      m.events = s.events ++ [.got c length 0
        ((s.dev.mem.drop (s.dev.proc_buffer + s.dev.proc_msg_read_pos)).take length)] := by
  have hcopy := copy_to_user_eq_some.mpr ⟨⟨Nat.zero_le length, hroom⟩, rfl⟩
  have hread : Mailbox.step s (.read c length) = some (s.goto c (.test length)) := if_pos hc
  have htest : Mailbox.step (s.goto c (.test length)) (.go c 0) =
      some (s.goto c (.tested length s.dev.proc_msg_length)) := by
    simp only [Mailbox.step, Mailbox.go, goto_at, goto_goto, goto_dev]
  have htested : Mailbox.step (s.goto c (.tested length s.dev.proc_msg_length)) (.go c 0) =
      some (s.goto c (.copy length length)) := by
    simp only [Mailbox.step, Mailbox.go, goto_at, goto_goto, goto_dev,
      if_neg (Nat.not_lt.mpr hall)]
  simp only [run_cons, run_nil, hread, htest, htested, Option.bind_some]
  simp only [Mailbox.step, Mailbox.go, goto_at, goto_dev, goto_events, hcopy, Option.bind_eq_bind,
    Option.bind_some, Nat.sub_zero]
  simp only [State.goto, Function.update_idem]
  exact ⟨_, rfl, rfl, rfl, rfl⟩

/-- The store of the cursor. -/
theorem step_advanced {n read_pos : Nat} (hc : s.point c = .advanced n read_pos) :
    ∃ m, Mailbox.step s (.go c 0) = some m ∧
      m.dev = s.dev.setReadPos (size_add read_pos n) ∧ m.events = s.events ∧
      m.point = Function.update s.point c .idle := by
  simp only [Mailbox.step, Mailbox.go, hc]
  exact ⟨_, rfl, rfl, rfl, rfl⟩

/-- A write of which nothing is lost, whatever the others are at. -/
theorem write_run {bs : List UInt8} (hfits : Fits s.dev) (hc : s.point c = .idle)
    (hbs : bs.length ≤ BUFFER_SIZE) :
    ∃ m, run Mailbox.step s [.write c bs bs.length, .go c 0, .go c 0, .go c 0] = some m ∧
      m.point = s.point ∧ m.dev.proc_msg_length = bs.length ∧
      m.dev.mem.length = s.dev.mem.length := by
  unfold Fits at hfits
  obtain ⟨mem, hstore⟩ : ∃ mem, storeBytes s.dev.mem s.dev.proc_buffer bs = some mem :=
    ⟨_, if_pos (by omega)⟩
  have hwrite : Mailbox.step s (.write c bs bs.length) = some (s.goto c (.fill bs bs.length)) := by
    simp only [Mailbox.step, if_pos hc, if_neg (Nat.not_lt.mpr hbs)]
  simp only [run_cons, run_nil, hwrite, Option.bind_some]
  simp only [Mailbox.step, Mailbox.go, goto_at, goto_dev, goto_events, copy_from_user_all, hstore,
    Option.bind_eq_bind, Option.bind_some, Nat.sub_zero, List.take_length]
  simp only [State.goto, Function.update_idem]
  refine ⟨_, rfl, ?_, rfl, storeBytes_length hstore⟩
  rw [← hc, Function.update_eq_self]

theorem quiet_of_update (h : ∀ d, d ≠ c → s.point d = .idle)
    (hpoint : s'.point = Function.update s.point c .idle) : Quiet s' := by
  intro d
  rw [hpoint]
  by_cases hd : d = c
  · rw [hd, Function.update_self]
  · rw [Function.update_of_ne hd]
    exact h d hd

/-- What a state with the cursor behind the message gives away: a read of any length delivers
    the memory from the cursor on, and moves the cursor further. -/
def GivesAway (s : State ι) : Prop :=
  ∀ c length, s.dev.proc_buffer + s.dev.proc_msg_read_pos + length ≤ s.dev.mem.length →
    ∃ more s', run Mailbox.step s (.read c length :: more) = some s' ∧ Quiet s' ∧
      s'.dev = s.dev.setReadPos (s.dev.proc_msg_read_pos + length) ∧
      s'.events = s.events ++ [.got c length 0
        ((s.dev.mem.drop (s.dev.proc_buffer + s.dev.proc_msg_read_pos)).take length)]

theorem gives_away (hq : Quiet s) (ho : Overrun s) (hsize : s.dev.mem.length ≤ 2 ^ 63) :
    GivesAway s := by
  intro c length hroom
  unfold Overrun at ho
  have hwrap : length ≤ size_sub s.dev.proc_msg_length s.dev.proc_msg_read_pos := by
    unfold size_sub
    omega
  obtain ⟨m, hread, hdev, hpoint, hevents⟩ := advanced_run (hq c) hwrap hroom
  obtain ⟨s', hstore, hdev', hevents', hpoint'⟩ := step_advanced (s := m) (c := c) (by
    rw [hpoint, Function.update_self])
  refine ⟨[.go c 0, .go c 0, .go c 0, .go c 0] ++ [.go c 0], s', ?_, ?_, ?_, ?_⟩
  · rw [← List.cons_append, run_concat, hread, Option.bind_some, hstore]
  · refine quiet_of_update (fun d hd => ?_) hpoint'
    rw [hpoint, Function.update_of_ne hd]
    exact hq d
  · rw [hdev', hdev, size_add_of_lt (by omega)]
  · rw [hevents', hevents]

/-- While `r` reads one byte, `w` writes a message no longer than the cursor. -/
theorem overtaken_run (h : Serial s unread) (hq : Quiet s) (hne : unread ≠ []) {r w : ι}
    (hrw : r ≠ w) {bs : List UInt8} (hbs : bs.length ≤ s.dev.proc_msg_read_pos) :
    ∃ more s', run Mailbox.step s more = some s' ∧ .write w bs bs.length ∈ more ∧ Quiet s' ∧
      Overrun s' ∧ s'.dev.mem.length = s.dev.mem.length := by
  have hready := h.quiet hq
  have hfits := h.fits
  have hpos : s.dev.proc_msg_read_pos ≤ s.dev.proc_msg_length := hready.pos_le
  have hlen := hready.length_le
  have hroom := hready.length_eq h.fits
  have hleft : 0 < unread.length := List.length_pos_iff.mpr hne
  have hall : 1 ≤ size_sub s.dev.proc_msg_length s.dev.proc_msg_read_pos := by
    rw [hready.size_sub_eq h.fits]
    exact hleft
  unfold Fits at hfits
  obtain ⟨m, hread, hdev, hpoint, -⟩ := advanced_run (hq r) hall (by omega)
  obtain ⟨n, hwrite, hpoint', hsize, hmem⟩ := write_run (s := m) (c := w) (hdev ▸ h.fits) (by
    rw [hpoint, Function.update_of_ne hrw.symm]
    exact hq w) (hbs.trans (hpos.trans hlen))
  obtain ⟨s', hstore, hdev'', -, hpoint''⟩ := step_advanced (s := n) (c := r) (by
    rw [hpoint', hpoint, Function.update_self])
  unfold BUFFER_SIZE at hlen
  refine ⟨[.read r 1, .go r 0, .go r 0, .go r 0, .go r 0] ++
    [.write w bs bs.length, .go w 0, .go w 0, .go w 0] ++ [.go r 0], s', ?_, ?_, ?_, ?_, ?_⟩
  · rw [run_concat, run_append, hread, Option.bind_some, hwrite, Option.bind_some, hstore]
  · exact List.mem_append_left _ (List.mem_append_right _ List.mem_cons_self)
  · refine quiet_of_update (fun d hd => ?_) hpoint''
    rw [hpoint', hpoint, Function.update_of_ne hd]
    exact hq d
  · unfold Overrun
    rw [hdev'', Rw.setReadPos_proc_msg_length, Rw.setReadPos_proc_msg_read_pos, hsize,
      size_add_of_lt (by omega)]
    omega
  · rw [hdev'', Rw.setReadPos_mem, hmem, hdev]

/-- In a run in which no call begins while another is in progress: the copies are those of the
    file as `Event.apply` describes it, what is left of the last message is what the variables
    say, and no call gets stuck. When a call may begin during another, a short message written
    while the last one is being read puts the cursor behind the message, and then reads of any
    length are served with the memory behind it. -/
theorem shared_run {kmalloc : List UInt8 × Nat} {dev : Rw}
    (hload : create_buffer (some kmalloc) = .ok dev)
    (hroom : kmalloc.2 + BUFFER_SIZE ≤ kmalloc.1.length) (hsize : kmalloc.1.length ≤ 2 ^ 63)
    {acts : List (Act ι)} (hC : AllSteps Mailbox.step Alone (State.init dev) acts)
    (hrun : run Mailbox.step (State.init dev) acts = some s) :
    ∃ unread, run Event.apply [] s.events = some unread ∧
      (Quiet s → unread = (s.dev.mem.drop (s.dev.proc_buffer + s.dev.proc_msg_read_pos)).take
        (s.dev.proc_msg_length - s.dev.proc_msg_read_pos)) ∧
      (∀ c, s.point c ≠ .idle → ∃ left s', Mailbox.step s (.go c left) = some s') ∧
      (Quiet s → unread ≠ [] → ∀ r w, r ≠ w → ∀ bs : List UInt8,
        bs.length ≤ s.dev.proc_msg_read_pos →
          ∃ more s', run Mailbox.step s more = some s' ∧ .write w bs bs.length ∈ more ∧
            Quiet s' ∧ Overrun s' ∧ GivesAway s') := by
  obtain ⟨unread, h⟩ := serial_run (serial_init hload hroom hsize) hC hrun
  refine ⟨unread, h.replay, fun hq => ?_, fun c hc => (h.serves hc).progress hc, ?_⟩
  · have hrest := (h.quiet hq).rest
    rwa [Nat.add_zero, Nat.sub_zero] at hrest
  · intro hq hne r w hrw bs hbs
    obtain ⟨more, s', hs', hmem, hq', ho, hlength⟩ := overtaken_run h hq hne hrw hbs
    have hsize' : s'.dev.mem.length ≤ 2 ^ 63 := by
      rw [hlength]
      exact h.fits.2
    exact ⟨more, s', hs', hmem, hq', ho, gives_away hq' ho hsize'⟩

/-- Three bytes are written and two of them read; then comes a message of two. -/
theorem shared_run_short : ∃ s : State Bool,
    run Event.apply [] s.events = some [3] ∧ ∃ more s', run Mailbox.step s more = some s' ∧
      .write true [8, 9] 2 ∈ more ∧ Quiet s' ∧ Overrun s' ∧ GivesAway s' := by
  have hread : ∃ s ∈ run Mailbox.step (State.init ⟨List.replicate 12 0, 1, 0, 0⟩ : State Bool)
      ([.write true [1, 2, 3] 3, .go true 0, .go true 0, .go true 0] ++
        [.read false 2, .go false 0, .go false 0, .go false 0, .go false 0, .go false 0]),
      Quiet s ∧ run Event.apply [] s.events = some [3] ∧ s.dev.proc_msg_read_pos = 2 := by
    decide +kernel
  obtain ⟨s, hs, hq, hevents, hpos⟩ := hread
  have hload : create_buffer (some (List.replicate 12 0, 1)) =
      .ok ⟨List.replicate 12 0, 1, 0, 0⟩ := rfl
  obtain ⟨unread, hunread, -, -, hmore⟩ :=
    shared_run hload (by decide) (by decide) (by decide +kernel) hs
  rw [hevents] at hunread
  cases hunread
  exact ⟨s, hevents, hmore hq (by decide) false true (by decide) [8, 9] (by rw [hpos]; decide)⟩

end KernelBasecamp.Procfs.Mailbox
