/-
  Several clients reading the chat.

  The end of a view is signalled by `bytes_read`, which all open files share: the call after one
  that delivered something returns 0, whoever makes it. A client that comes between another
  client's view and its 0 gets a 0 for its own view (`stolen_zero`).

  `Readers` is the system: the module, and for each client what it has received and whether it
  has had its 0 and stopped. `Undisturbed` is the condition that no other client calls between a
  call that delivers a view and the next call of the same client.

  * `views_once`: in a run that meets the condition every client with a non-empty view gets it
    exactly once before its 0; and a run at whose end nobody waits for a 0 and all views were
    delivered like that has met the condition.
-/
import Mathlib
import KernelBasecamp.Chat.Log

namespace KernelBasecamp.Chat

open Lib Lib.CMem

/-! ## One call -/

/-- The bytes delivered by a call. -/
def delivered (copies : List (Nat × List UInt8)) : List UInt8 := (copies.map Prod.snd).flatten

/-- With complete copies `out` advances by what is delivered. -/
theorem scan_delivered {index un_l : Nat} {user m : List UInt8} {out : Nat}
    {r : Nat × List (Nat × List UInt8)}
    (h : scan index user un_l (fun _ => 0) m out = some r) :
    r.1 = out + (delivered r.2).length := by
  fun_induction scan index user un_l (fun _ => 0) m out generalizing r with
  | case1 => cases h
  | case2 => cases h; rfl
  | case3 => cases h
  | case4 => cases h
  | case5 m out c hc hc0 k hnext ih =>
      obtain ⟨line, hline, h⟩ := Option.bind_eq_some_iff.mp h
      obtain ⟨rest, hrest, rfl⟩ := Option.map_eq_some_iff.mp h
      have hrest := ih line hrest
      have hfirst : line.1 = out + (delivered line.2).length := by
        unfold copyLine at hline
        rw [Option.bind_eq_bind, Option.bind_eq_some_iff] at hline
        obtain ⟨mine, -, hline⟩ := hline
        split at hline
        · obtain ⟨bytes, hbytes, hline⟩ := Option.bind_eq_some_iff.mp hline
          cases hline
          obtain ⟨⟨-, hle⟩, rfl⟩ := copy_to_user_eq_some.mp hbytes
          simp [delivered]
          omega
        · cases hline
          rfl
      unfold delivered at hfirst hrest ⊢
      rw [List.map_append, List.flatten_append, List.length_append]
      omega

/-- What a device shows: the bytes of a complete read with `bytes_read = 0`. -/
def view (dev : State) (index : Nat) : Option (List UInt8) :=
  (dev_read { dev with bytes_read := 0 } index 0 fun _ => 0).map fun r => delivered r.2.2

/-- A complete read: the shared flag turns it into a 0, or it delivers the view. -/
theorem dev_read_cases {dev : State} {index count : Nat}
    {r : State × Nat × List (Nat × List UInt8)}
    (h : dev_read dev index count (fun _ => 0) = some r) :
    (dev.bytes_read ≠ 0 ∧ r = ({ dev with bytes_read := 0 }, 0, [])) ∨
      (dev.bytes_read = 0 ∧ view dev index = some (delivered r.2.2) ∧
        r.1 = { dev with bytes_read := (delivered r.2.2).length } ∧
        r.2.1 = (delivered r.2.2).length) := by
  by_cases hread : dev.bytes_read = 0
  · right
    have hsame : { dev with bytes_read := 0 } = dev := by rw [← hread]
    have hview : view dev index = some (delivered r.2.2) := by
      unfold view
      rw [hsame]
      exact congrArg (Option.map fun r => delivered r.2.2) h
    refine ⟨hread, hview, ?_⟩
    unfold dev_read at h
    rw [Option.bind_eq_bind, Option.bind_eq_some_iff] at h
    obtain ⟨n, -, h⟩ := h
    rw [if_neg (not_not_intro hread)] at h
    simp only [Option.bind_eq_bind, Option.bind_eq_some_iff] at h
    obtain ⟨m, -, q, hq, h⟩ := h
    cases h
    have hout := scan_delivered hq
    rw [Nat.zero_add] at hout
    exact ⟨by rw [hout], hout⟩
  · left
    unfold dev_read at h
    rw [Option.bind_eq_bind, Option.bind_eq_some_iff] at h
    obtain ⟨n, -, h⟩ := h
    rw [if_pos hread] at h
    cases h
    exact ⟨hread, rfl⟩

/-! ## The clients -/

/-- The module and its clients. -/
structure Readers (κ : Type) where
  dev : State
  /-- what each call of the client delivered -/
  received : κ → List (List UInt8)
  /-- the client has got its 0 -/
  finished : κ → Bool
  /-- the client of the last call, if that call delivered something -/
  last : Option κ

variable {κ : Type} [DecidableEq κ] (minor : κ → Nat)

/-- Nobody has called yet. -/
def Readers.start (dev : State) : Readers κ := ⟨dev, fun _ => [], fun _ => false, none⟩

/-- A client that has not had its 0 reads its device, with the given `count` and with complete
    copies. -/
def call (s : Readers κ) (c : κ × Nat) : Option (Readers κ) :=
  if s.finished c.1 then none
  else
    (dev_read s.dev (minor c.1) c.2 fun _ => 0).map fun r =>
      if r.2.1 = 0 then
        { s with dev := r.1, finished := Function.update s.finished c.1 true, last := none }
      else
        { s with
          dev := r.1
          received := Function.update s.received c.1 (s.received c.1 ++ [delivered r.2.2])
          last := some c.1 }

/-- No other client calls between a call that delivers something and the next call of the same
    client. -/
def Undisturbed (s : Readers κ) (c : κ × Nat) : Prop := s.last = none ∨ s.last = some c.1

instance (s : Readers κ) (c : κ × Nat) : Decidable (Undisturbed s c) :=
  inferInstanceAs (Decidable (s.last = none ∨ s.last = some c.1))

/-- What a call can do. -/
inductive Called (s : Readers κ) (c : κ) : Readers κ → Prop where
  /-- the flag was set: a 0 -/
  | flagged (hread : s.dev.bytes_read ≠ 0) :
      Called s c { s with
        dev := { s.dev with bytes_read := 0 }
        finished := Function.update s.finished c true
        last := none }
  /-- nothing to deliver: a 0 -/
  | empty (hread : s.dev.bytes_read = 0) (hview : view s.dev (minor c) = some []) :
      Called s c { s with
        dev := { s.dev with bytes_read := 0 }
        finished := Function.update s.finished c true
        last := none }
  /-- the view is delivered -/
  | deliver (v : List UInt8) (hread : s.dev.bytes_read = 0)
      (hview : view s.dev (minor c) = some v) (hv : v ≠ []) :
      Called s c { s with
        dev := { s.dev with bytes_read := v.length }
        received := Function.update s.received c (s.received c ++ [v])
        last := some c }

theorem call_cases {s s' : Readers κ} {c : κ × Nat} (h : call minor s c = some s') :
    s.finished c.1 = false ∧ Called minor s c.1 s' := by
  unfold call at h
  split at h
  · cases h
  · next hfin =>
      refine ⟨by simpa using hfin, ?_⟩
      obtain ⟨r, hr, rfl⟩ := Option.map_eq_some_iff.mp h
      rcases dev_read_cases hr with ⟨hread, rfl⟩ | ⟨hread, hview, hdev, hret⟩
      · exact .flagged hread
      · by_cases hnil : delivered r.2.2 = []
        · rw [hret, hdev, hnil]
          rw [hnil] at hview
          exact .empty hread hview
        · have hlen : (delivered r.2.2).length ≠ 0 := fun h0 => hnil (List.length_eq_zero_iff.mp h0)
          rw [if_neg (hret ▸ hlen), hdev]
          exact .deliver _ hread hview hnil

/-! ## Invariants -/

/-- What holds in every run: the views do not change, `last` stands for the flag, and what a
    client has received are copies of its view. -/
structure Reading (dev : State) (s : Readers κ) : Prop where
  same : ∀ index, view s.dev index = view dev index
  flag : s.last = none → s.dev.bytes_read = 0
  waits : ∀ c, s.last = some c →
    s.dev.bytes_read ≠ 0 ∧ s.received c ≠ [] ∧ s.finished c = false
  copies : ∀ c, ∀ v ∈ s.received c, v ≠ [] ∧ view dev (minor c) = some v

omit [DecidableEq κ] in
theorem reading_start {dev : State} (hdev : dev.bytes_read = 0) :
    Reading minor dev (Readers.start dev) where
  same _ := rfl
  flag _ := hdev
  waits _ h := nomatch h
  copies _ _ h := nomatch h

theorem reading_call {dev : State} {s s' : Readers κ} {c : κ} (h : Reading minor dev s)
    (hfin : s.finished c = false) (hs : Called minor s c s') : Reading minor dev s' := by
  cases hs with
  | flagged hread => exact ⟨h.same, fun _ => rfl, fun _ hl => (nomatch hl), h.copies⟩
  | empty hread hview => exact ⟨h.same, fun _ => rfl, fun _ hl => (nomatch hl), h.copies⟩
  | deliver v hread hview hv =>
      refine ⟨h.same, fun hl => (nomatch hl), fun d hl => ?_, fun d w hw => ?_⟩
      · cases hl
        refine ⟨fun h0 => hv (List.length_eq_zero_iff.mp h0), ?_, hfin⟩
        dsimp only
        rw [Function.update_self]
        simp
      · dsimp only at hw
        by_cases hdc : d = c
        · subst hdc
          rw [Function.update_self] at hw
          rcases List.mem_append.mp hw with hw | hw
          · exact h.copies d w hw
          · rw [List.mem_singleton.mp hw, ← h.same]
            exact ⟨hv, hview⟩
        · rw [Function.update_of_ne hdc] at hw
          exact h.copies d w hw

/-- What holds in an undisturbed run: a client with a non-empty view has received it when it is
    finished, and otherwise only if it is the one whose 0 is due. -/
def Orderly (dev : State) (s : Readers κ) : Prop :=
  ∀ c v, view dev (minor c) = some v → v ≠ [] →
    (s.finished c = true → s.received c = [v]) ∧
    (s.finished c = false → s.received c = [] ∨ s.received c = [v] ∧ s.last = some c)

theorem orderly_call {dev : State} {s s' : Readers κ} {c : κ × Nat} (hr : Reading minor dev s)
    (h : Orderly minor dev s) (hC : Undisturbed s c) (hfin : s.finished c.1 = false)
    (hs : Called minor s c.1 s') : Orderly minor dev s' := by
  intro d v hview hv
  obtain ⟨hdone, hopen⟩ := h d v hview hv
  cases hs with
  | flagged hread =>
      -- the flag is due to the client that calls
      have hlast : s.last = some c.1 := hC.resolve_left fun hl => hread (hr.flag hl)
      dsimp only
      by_cases hdc : d = c.1
      · subst hdc
        rw [Function.update_self]
        refine ⟨fun _ => ?_, fun hf => nomatch hf⟩
        exact ((hopen hfin).resolve_left (hr.waits _ hlast).2.1).1
      · rw [Function.update_of_ne hdc]
        refine ⟨hdone, fun hf => .inl ((hopen hf).resolve_right fun hl => hdc ?_)⟩
        rw [hlast] at hl
        exact (Option.some.inj hl.2).symm
  | empty hread hview' =>
      dsimp only
      by_cases hdc : d = c.1
      · rw [hdc, ← hr.same, hview'] at hview
        exact absurd (Option.some.inj hview).symm hv
      · rw [Function.update_of_ne hdc]
        refine ⟨hdone, fun hf => .inl ((hopen hf).resolve_right fun hl => ?_)⟩
        exact (hr.waits d hl.2).1 hread
  | deliver w hread hview' hw =>
      have hlast : ∀ e, s.last ≠ some e := fun e he => (hr.waits e he).1 hread
      dsimp only
      by_cases hdc : d = c.1
      · subst hdc
        rw [← hr.same, hview'] at hview
        cases hview
        rw [Function.update_self]
        have hnone := (hopen hfin).resolve_right fun hl => hlast _ hl.2
        rw [hnone]
        exact ⟨fun hf => (by rw [hfin] at hf; cases hf), fun _ => .inr ⟨rfl, rfl⟩⟩
      · rw [Function.update_of_ne hdc]
        exact ⟨hdone, fun hf => .inl ((hopen hf).resolve_right fun hl => hlast d hl.2)⟩

/-! ## Back from the end of a run -/

/-- The client has received something and not had its 0. -/
def Waiting (s : Readers κ) (c : κ) : Prop := s.received c ≠ [] ∧ s.finished c = false

/-- More clients wait for a 0 than the flag can serve, or a client has already been served
    wrongly. -/
def Spoiled (dev : State) (s : Readers κ) : Prop :=
  (s.dev.bytes_read = 0 ∧ ∃ c, Waiting s c) ∨
  (∃ c d, c ≠ d ∧ Waiting s c ∧ Waiting s d) ∨
  ∃ c v, view dev (minor c) = some v ∧ v ≠ [] ∧
    (s.finished c = true ∧ s.received c ≠ [v] ∨ 2 ≤ (s.received c).length)

/-- A call leaves the other clients waiting. -/
theorem waiting_call {s s' : Readers κ} {c w : κ} (hw : Waiting s w) (hne : w ≠ c)
    (hs : Called minor s c s') : Waiting s' w := by
  obtain ⟨hrec, hfin⟩ := hw
  unfold Waiting
  cases hs with
  | flagged | empty | deliver =>
      dsimp only
      rw [Function.update_of_ne hne]
      exact ⟨hrec, hfin⟩

/-- The call of another client spoils the run. -/
theorem spoiled_of_disturbed {dev : State} {s s' : Readers κ} {c : κ × Nat}
    (h : Reading minor dev s) (hC : ¬ Undisturbed s c) (hs : Called minor s c.1 s') :
    Spoiled minor dev s' := by
  obtain ⟨hnone, hself⟩ := not_or.mp hC
  obtain ⟨d, hd⟩ := Option.ne_none_iff_exists'.mp hnone
  obtain ⟨hread, hrec, hfin⟩ := h.waits d hd
  have hdc : d ≠ c.1 := fun hdc => hself (hdc ▸ hd)
  have hwait := waiting_call minor ⟨hrec, hfin⟩ hdc hs
  cases hs with
  | flagged => exact .inl ⟨rfl, d, hwait⟩
  | empty h0 => exact absurd h0 hread
  | deliver v h0 => exact absurd h0 hread

/-- A client that is given its view waits. -/
theorem waiting_deliver (s : Readers κ) (c : κ) (hfin : s.finished c = false) (v : List UInt8) :
    Waiting { s with
      dev := { s.dev with bytes_read := v.length }
      received := Function.update s.received c (s.received c ++ [v])
      last := some c } c := by
  refine ⟨?_, hfin⟩
  dsimp only
  rw [Function.update_self]
  simp

/-- A client waits while the flag is clear. -/
theorem spoiled_of_unserved {dev : State} {s s' : Readers κ} {c w : κ}
    (hr : Reading minor dev s) (h0 : s.dev.bytes_read = 0) (hw : Waiting s w)
    (hfin : s.finished c = false) (hs : Called minor s c s') : Spoiled minor dev s' := by
  by_cases hwc : w = c
  · -- it is given its view once more
    subst hwc
    obtain ⟨x, xs, hx⟩ := List.exists_cons_of_ne_nil hw.1
    obtain ⟨hx0, hxview⟩ := hr.copies w x (by rw [hx]; exact List.mem_cons_self)
    cases hs with
    | flagged hread => exact absurd h0 hread
    | empty _ hview =>
        rw [hr.same, hxview] at hview
        exact absurd (Option.some.inj hview) hx0
    | deliver v =>
        refine .inr (.inr ⟨w, x, hxview, hx0, .inr ?_⟩)
        dsimp only
        rw [Function.update_self, hx, List.length_append]
        simp
  · have hwait := waiting_call minor hw hwc hs
    cases hs with
    | flagged hread => exact absurd h0 hread
    | empty => exact .inl ⟨rfl, w, hwait⟩
    | deliver v => exact .inr (.inl ⟨w, c, hwc, hwait, waiting_deliver s c hfin v⟩)

/-- Two clients wait: one of them is not the one that calls. -/
theorem spoiled_of_crowd {dev : State} {s s' : Readers κ} {c w₁ w₂ : κ} (hne : w₁ ≠ w₂)
    (hw₁ : Waiting s w₁) (hw₂ : Waiting s w₂) (hfin : s.finished c = false)
    (hs : Called minor s c s') : Spoiled minor dev s' := by
  obtain ⟨w, hwc, hw⟩ : ∃ w, w ≠ c ∧ Waiting s w := by
    by_cases h₁ : w₁ = c
    · exact ⟨w₂, fun h₂ => hne (h₁.trans h₂.symm), hw₂⟩
    · exact ⟨w₁, h₁, hw₁⟩
  have hwait := waiting_call minor hw hwc hs
  cases hs with
  | flagged | empty => exact .inl ⟨rfl, w, hwait⟩
  | deliver v => exact .inr (.inl ⟨w, c, hwc, hwait, waiting_deliver s c hfin v⟩)

/-- What went wrong stays: a finished client does not call again, and nothing that was
    received is taken back. -/
theorem spoiled_of_wrong {dev : State} {s s' : Readers κ} {c w : κ} {v : List UInt8}
    (hview : view dev (minor w) = some v) (hv : v ≠ [])
    (hbad : s.finished w = true ∧ s.received w ≠ [v] ∨ 2 ≤ (s.received w).length)
    (hfin : s.finished c = false) (hs : Called minor s c s') : Spoiled minor dev s' := by
  refine .inr (.inr ⟨w, v, hview, hv, ?_⟩)
  by_cases hwc : w = c
  · subst hwc
    have hlen : 2 ≤ (s.received w).length :=
      hbad.resolve_left fun hf => by rw [hfin] at hf; cases hf.1
    right
    cases hs with
    | flagged | empty => exact hlen
    | deliver v =>
        dsimp only
        rw [Function.update_self, List.length_append]
        omega
  · cases hs with
    | flagged | empty | deliver =>
        dsimp only
        rw [Function.update_of_ne hwc]
        exact hbad

theorem spoiled_call {dev : State} {s s' : Readers κ} {c : κ} (hr : Reading minor dev s)
    (h : Spoiled minor dev s) (hfin : s.finished c = false) (hs : Called minor s c s') :
    Spoiled minor dev s' := by
  rcases h with ⟨h0, w, hw⟩ | ⟨w₁, w₂, hne, hw₁, hw₂⟩ | ⟨w, v, hview, hv, hbad⟩
  · exact spoiled_of_unserved minor hr h0 hw hfin hs
  · exact spoiled_of_crowd minor hne hw₁ hw₂ hfin hs
  · exact spoiled_of_wrong minor hview hv hbad hfin hs

omit [DecidableEq κ] in
/-- Clients that are done and were served well leave nothing spoiled. -/
theorem not_spoiled {dev : State} {s : Readers κ}
    (hdone : ∀ c, s.received c ≠ [] → s.finished c = true)
    (hgood : ∀ c v, view dev (minor c) = some v → v ≠ [] → s.finished c = true →
      s.received c = [v]) : ¬ Spoiled minor dev s := by
  rintro (⟨-, c, hrec, hfin⟩ | ⟨c, -, -, ⟨hrec, hfin⟩, -⟩ | ⟨c, v, hview, hv, hbad⟩)
  · rw [hdone c hrec] at hfin
    cases hfin
  · rw [hdone c hrec] at hfin
    cases hfin
  · rcases hbad with ⟨hfin, hne⟩ | hlen
    · exact hne (hgood c v hview hv hfin)
    · have hrec : s.received c ≠ [] := by
        intro hnil
        rw [hnil] at hlen
        cases hlen
      rw [hgood c v hview hv (hdone c hrec)] at hlen
      exact absurd hlen (by simp)

/-! ## Runs -/

omit [DecidableEq κ] in
theorem orderly_start (dev : State) : Orderly minor dev (Readers.start dev) :=
  fun _ _ _ _ => ⟨(fun hf => nomatch hf), fun _ => .inl rfl⟩

/-- An undisturbed run ends in an orderly state. -/
theorem orderly_run {dev : State} (hdev : dev.bytes_read = 0) {calls : List (κ × Nat)}
    {s : Readers κ} (hrun : run (call minor) (Readers.start dev) calls = some s)
    (hC : AllSteps (call minor) Undisturbed (Readers.start dev) calls) :
    Reading minor dev s ∧ Orderly minor dev s := by
  refine run_induct (fun _ s => Reading minor dev s ∧ Orderly minor dev s)
    ⟨reading_start minor hdev, orderly_start minor dev⟩ ?_ hC hrun
  rintro _ s c s' ⟨hr, ho⟩ hc hs
  obtain ⟨hfin, hs⟩ := call_cases minor hs
  exact ⟨reading_call minor hr hfin hs, orderly_call minor hr ho hc hfin hs⟩

/-- A run that ends in a state that is not spoiled was undisturbed. -/
theorem undisturbed_of_end {dev : State} (hdev : dev.bytes_read = 0) {calls : List (κ × Nat)}
    {s : Readers κ} (hrun : run (call minor) (Readers.start dev) calls = some s)
    (hend : ¬ Spoiled minor dev s) :
    AllSteps (call minor) Undisturbed (Readers.start dev) calls := by
  refine allSteps_of_end (Reading minor dev) (Spoiled minor dev) ?_ ?_ ?_
    (reading_start minor hdev) hrun hend
  · intro s c s' hr hs
    obtain ⟨hfin, hs⟩ := call_cases minor hs
    exact reading_call minor hr hfin hs
  · intro s c s' hr hC hs
    exact spoiled_of_disturbed minor hr hC (call_cases minor hs).2
  · intro s c s' hr hb hs
    obtain ⟨hfin, hs⟩ := call_cases minor hs
    exact spoiled_call minor hr hb hfin hs

/-- In a run of calls that nobody disturbs, every client with a non-empty view has received it
    exactly once when it has its 0, and at most once before. A run at whose end no client waits
    for its 0, and all that have one have received their view exactly once, was not
    disturbed. -/
theorem views_once {dev : State} (hdev : dev.bytes_read = 0) {calls : List (κ × Nat)}
    {s : Readers κ} (hrun : run (call minor) (Readers.start dev) calls = some s) :
    (AllSteps (call minor) Undisturbed (Readers.start dev) calls →
      ∀ c v, view dev (minor c) = some v → v ≠ [] →
        (s.finished c = true → s.received c = [v]) ∧
        (s.finished c = false → s.received c = [] ∨ s.received c = [v])) ∧
    ((∀ c, s.received c ≠ [] → s.finished c = true) →
      (∀ c v, view dev (minor c) = some v → v ≠ [] → s.finished c = true →
        s.received c = [v]) →
      AllSteps (call minor) Undisturbed (Readers.start dev) calls) := by
  constructor
  · intro hC c v hview hv
    obtain ⟨hdone, hopen⟩ := (orderly_run minor hdev hrun hC).2 c v hview hv
    exact ⟨hdone, fun hf => (hopen hf).imp_right And.left⟩
  · intro hcomplete hgood
    exact undisturbed_of_end minor hdev hrun (not_spoiled minor hcomplete hgood)

/-- A log with one line, "a: x". -/
def oneLine : List Act := [.add [97, 10] 2 0, .write 1 [120, 10] 2 0]

/-- Two clients of minor 1, one after the other. -/
def politeCalls : List (Bool × Nat) := [(true, 10), (true, 10), (false, 10), (false, 10)]

theorem views_once_polite : ∃ dev s, run step State.loaded oneLine = some dev ∧
    run (call fun _ => 1) (Readers.start dev) politeCalls = some s ∧
    s.received false = [[97, 58, 32, 120, 10]] := by
  obtain ⟨dev, hdev⟩ := Option.isSome_iff_exists.mp
    (by decide +kernel : (run step State.loaded oneLine).isSome = true)
  have hlog : (run step State.loaded oneLine).map (fun dev => (dev.bytes_read, view dev 1)) =
      some (0, some [97, 58, 32, 120, 10]) := by decide +kernel
  have hcalls : (run step State.loaded oneLine).map (fun dev =>
      (decide (AllSteps (call fun _ => 1) Undisturbed (Readers.start dev) politeCalls),
        (run (call fun _ => 1) (Readers.start dev) politeCalls).map fun s => s.finished false)) =
      some (true, some true) := by decide +kernel
  rw [hdev] at hlog hcalls
  obtain ⟨hread, hview⟩ := Prod.mk.inj (Option.some.inj hlog)
  obtain ⟨hpolite, hend⟩ := Prod.mk.inj (Option.some.inj hcalls)
  obtain ⟨s, hrun, hfin⟩ := Option.map_eq_some_iff.mp hend
  refine ⟨dev, s, hdev, hrun, ?_⟩
  exact ((views_once (fun _ => 1) hread hrun).1 (of_decide_eq_true hpolite) false _ hview
    (List.cons_ne_nil _ _)).1 hfin

/-- Two clients of minor 1: the second call is made by the other client and takes the 0. -/
theorem stolen_zero : ¬ ∀ (κ : Type) (_ : DecidableEq κ) (minor : κ → Nat) (acts : List Act)
    (dev : State) (calls : List (κ × Nat)) (s : Readers κ),
    run step State.loaded acts = some dev → dev.bytes_read = 0 →
    run (call minor) (Readers.start dev) calls = some s →
    ∀ c v, view dev (minor c) = some v → v ≠ [] → s.finished c = true → s.received c = [v] := by
  intro hall
  obtain ⟨dev, hdev⟩ := Option.isSome_iff_exists.mp
    (by decide +kernel : (run step State.loaded oneLine).isSome = true)
  have hlog : (run step State.loaded oneLine).map (fun dev => (dev.bytes_read, view dev 1)) =
      some (0, some [97, 58, 32, 120, 10]) := by decide +kernel
  have hcalls : (run step State.loaded oneLine).map (fun dev =>
      (run (call fun _ => 1) (Readers.start dev) [(true, 10), (false, 10)]).map fun s =>
        (s.finished false, s.received false)) = some (some (true, [])) := by decide +kernel
  rw [hdev] at hlog hcalls
  obtain ⟨hread, hview⟩ := Prod.mk.inj (Option.some.inj hlog)
  obtain ⟨s, hrun, hend⟩ := Option.map_eq_some_iff.mp (Option.some.inj hcalls)
  obtain ⟨hfin, hnone⟩ := Prod.mk.inj hend
  have hgot := hall Bool inferInstance (fun _ => 1) oneLine dev _ s hdev hread hrun false _ hview
    (List.cons_ne_nil _ _) hfin
  rw [hnone] at hgot
  cases hgot

end KernelBasecamp.Chat
