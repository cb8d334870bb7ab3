/-
  When the device of fixdev.c admits one client at a time.

  `dev_open` tests `device_open` and counts itself in two steps later. `Settled` excludes the
  one step that goes wrong: a client that finds `device_open` clear while another client is
  between its test and its count.

  * `exclusive_run`: without such a step at most one client is inside, and the device is free
    again when it has left; and wherever such a step is possible it leads to a state in which
    two clients have the device open, and from there, when both have closed it, to a state in
    which nobody can open it again.

  The invariant is `Good`: nobody is inside, or one client is and `device_open` is what that
  client has made it. The bad runs are played by two clients alone; `duo` is their game.
-/
import KernelBasecamp.Chrdev.Device

namespace KernelBasecamp.Chrdev

open Lib

variable {ι : Type} [DecidableEq ι]

/-- Between the test and the count of `dev_open`. -/
def Point.entering : Point → Bool
  | .admitted => true
  | .counting _ => true
  | _ => false

/-- Nobody is between test and count when a client finds `device_open` clear. -/
def Settled (s : State ι) : Act ι → Prop
  | .call c => s.point c = .closed → s.device_open = 0 → ∀ d, (s.point d).entering = false
  | .read .. => True

instance [Fintype ι] (s : State ι) : ∀ a, Decidable (Settled s a)
  | .call c => inferInstanceAs (Decidable
      (s.point c = .closed → s.device_open = 0 → ∀ d, (s.point d).entering = false))
  | .read .. => inferInstanceAs (Decidable True)

/-- Two clients have the device open. -/
def Shared (s : State ι) : Prop :=
  ∃ c d, c ≠ d ∧ (∃ p, s.point c = .opened p) ∧ ∃ p, s.point d = .opened p

/-- Nobody has the device open, and nobody can open it. -/
def Jammed (s : State ι) : Prop := s.device_open ≠ 0 ∧ ∀ c, s.point c = .closed

/-! ## One client inside -/

/-- The client inside is at the point, and `device_open` is `n`. -/
def Point.owns : Point → Int → Prop
  | .closed, _ => False
  | .admitted, n => n = 0
  | .counting m, n => m = 0 ∧ n = 0
  | .opened _, n => n = 1
  | .leaving m, n => m = 1 ∧ n = 1

/-- At most `c` is inside. -/
def Alone (s : State ι) (c : ι) : Prop := ∀ d, d ≠ c → s.point d = .closed

def Good (s : State ι) : Prop :=
  (s.device_open = 0 ∧ ∀ c, s.point c = .closed) ∨
    ∃ c, (s.point c).owns s.device_open ∧ Alone s c

omit [DecidableEq ι] in
/-- Whoever is inside is the one. -/
theorem Good.owner {s : State ι} (h : Good s) {c : ι} (hc : s.point c ≠ .closed) :
    (s.point c).owns s.device_open ∧ Alone s c := by
  rcases h with ⟨-, hall⟩ | ⟨o, howns, halone⟩
  · exact absurd (hall c) hc
  · by_cases hco : c = o
    · subst hco
      exact ⟨howns, halone⟩
    · exact absurd (halone c hco) hc

theorem Alone.move {s s' : State ι} {c : ι} {p : Point} (h : Alone s c)
    (hpoint : s'.point = Function.update s.point c p) : Alone s' c := by
  intro d hd
  rw [hpoint, Function.update_of_ne hd]
  exact h d hd

/-- The client inside moves on. -/
theorem Good.move {s s' : State ι} {c : ι} {p : Point} (h : Alone s c)
    (hpoint : s'.point = Function.update s.point c p) (howns : p.owns s'.device_open) :
    Good s' := by
  refine .inr ⟨c, ?_, h.move hpoint⟩
  rw [hpoint, Function.update_self]
  exact howns

theorem good_step {s s' : State ι} {a : Act ι} (h : Good s) (hC : Settled s a)
    (hs : Step s a s') : Good s' := by
  cases hs with
  | busy => exact h
  | enter c hp hn =>
      rcases h with ⟨-, hall⟩ | ⟨o, howns, halone⟩
      · exact Good.move (c := c) (fun d _ => hall d) rfl hn
      · -- whoever is inside while `device_open` is clear is between test and count
        have hsettled := hC hp hn o
        rw [hn] at howns
        cases hpoint : s.point o with
        | closed =>
            rw [hpoint] at howns
            cases howns
        | admitted | counting m =>
            rw [hpoint] at hsettled
            cases hsettled
        | opened p | leaving m =>
            rw [hpoint] at howns
            simp [Point.owns] at howns
  | load c hp =>
      obtain ⟨howns, halone⟩ := h.owner (c := c) (by rw [hp]; simp)
      rw [hp] at howns
      exact Good.move halone rfl ⟨howns, howns⟩
  | store c n hp =>
      obtain ⟨howns, halone⟩ := h.owner (c := c) (by rw [hp]; simp)
      rw [hp] at howns
      refine Good.move halone rfl ?_
      change n + 1 = 1
      rw [howns.1, zero_add]
  | leave c ppos hp =>
      obtain ⟨howns, halone⟩ := h.owner (c := c) (by rw [hp]; simp)
      rw [hp] at howns
      exact Good.move halone rfl ⟨howns, howns⟩
  | close c n hp =>
      obtain ⟨howns, halone⟩ := h.owner (c := c) (by rw [hp]; simp)
      rw [hp] at howns
      refine .inl ⟨?_, fun d => ?_⟩
      · change n - 1 = 0
        rw [howns.1, sub_self]
      · rw [goto_point]
        by_cases hd : d = c
        · rw [hd, Function.update_self]
        · rw [Function.update_of_ne hd]
          exact halone d hd
  | read c count left ppos hp =>
      obtain ⟨howns, halone⟩ := h.owner (c := c) (by rw [hp]; simp)
      rw [hp] at howns
      exact Good.move halone rfl howns

theorem good_run {acts : List (Act ι)} {s : State ι}
    (hC : AllSteps step Settled State.init acts) (hrun : run step State.init acts = some s) :
    Good s :=
  run_induct (fun _ s => Good s) (.inl ⟨rfl, fun _ => rfl⟩)
    (fun _ _ _ _ h hC hs => good_step h hC (step_iff.mp hs)) hC hrun

/-! ## Two clients -/

/-- What a call does to the client's point and to `device_open`. -/
def advance : Point → Int → Point × Int
  | .closed, n => if n ≠ 0 then (.closed, n) else (.admitted, n)
  | .admitted, n => (.counting n, n)
  | .counting m, _ => (.opened 0, m + 1)
  | .opened _, n => (.leaving n, n)
  | .leaving m, _ => (.closed, m - 1)

theorem call_advances (s : State ι) (c : ι) : ∃ s', step s (.call c) = some s' ∧
    s'.point = Function.update s.point c (advance (s.point c) s.device_open).1 ∧
    s'.device_open = (advance (s.point c) s.device_open).2 := by
  cases hp : s.point c with
  | closed =>
      by_cases hn : s.device_open = 0
      · refine ⟨_, step_iff.mpr (.enter c hp hn), ?_, ?_⟩
        · rw [hn]
          rfl
        · rw [hn]
          exact hn
      · have hstay : advance .closed s.device_open = (.closed, s.device_open) := if_pos hn
        refine ⟨_, step_iff.mpr (.busy c hp hn), ?_, ?_⟩
        · rw [hstay, ← hp, Function.update_eq_self]
        · rw [hstay]
  | admitted => exact ⟨_, step_iff.mpr (.load c hp), rfl, rfl⟩
  | counting n => exact ⟨_, step_iff.mpr (.store c n hp), rfl, rfl⟩
  | opened ppos => exact ⟨_, step_iff.mpr (.leave c ppos hp), rfl, rfl⟩
  | leaving n => exact ⟨_, step_iff.mpr (.close c n hp), rfl, rfl⟩

/-- `c` and `d` are at these points, everybody else is outside, and `device_open` is `n`. -/
def Pair (s : State ι) (c d : ι) (g : Point × Point × Int) : Prop :=
  s.point c = g.1 ∧ s.point d = g.2.1 ∧ s.device_open = g.2.2 ∧
    ∀ e, e ≠ c → e ≠ d → s.point e = .closed

/-- The game of two clients: `true` is a call of the first. -/
def duo : List Bool → Point × Point × Int → Point × Point × Int
  | [], g => g
  | true :: bs, (p, q, n) => duo bs ((advance p n).1, q, (advance p n).2)
  | false :: bs, (p, q, n) => duo bs (p, (advance q n).1, (advance q n).2)

theorem run_duo {c d : ι} (hcd : c ≠ d) (bs : List Bool) {s : State ι}
    {g : Point × Point × Int} (h : Pair s c d g) :
    ∃ s', run step s (bs.map fun b => .call (if b then c else d)) = some s' ∧
      Pair s' c d (duo bs g) := by
  induction bs generalizing s g with
  | nil => exact ⟨s, rfl, h⟩
  | cons b bs ih =>
      obtain ⟨hc, hd, hn, hrest⟩ := h
      obtain ⟨p, q, n⟩ := g
      dsimp only at hc hd hn
      cases b with
      | true =>
          obtain ⟨m, hm, hpoint, hopen⟩ := call_advances s c
          rw [hc, hn] at hpoint hopen
          obtain ⟨s', hs', hpair⟩ := ih (s := m) (g := ((advance p n).1, q, (advance p n).2)) (by
            refine ⟨?_, ?_, hopen, fun e hec hed => ?_⟩
            · rw [hpoint, Function.update_self]
            · rw [hpoint, Function.update_of_ne hcd.symm, hd]
            · rw [hpoint, Function.update_of_ne hec]
              exact hrest e hec hed)
          refine ⟨s', ?_, hpair⟩
          rw [List.map_cons, run_cons, if_pos rfl, hm]
          exact hs'
      | false =>
          obtain ⟨m, hm, hpoint, hopen⟩ := call_advances s d
          rw [hd, hn] at hpoint hopen
          obtain ⟨s', hs', hpair⟩ := ih (s := m) (g := (p, (advance q n).1, (advance q n).2)) (by
            refine ⟨?_, ?_, hopen, fun e hec hed => ?_⟩
            · rw [hpoint, Function.update_of_ne hcd, hc]
            · rw [hpoint, Function.update_self]
            · rw [hpoint, Function.update_of_ne hed]
              exact hrest e hec hed)
          refine ⟨s', ?_, hpair⟩
          rw [List.map_cons, run_cons, if_neg Bool.false_ne_true, hm]
          exact hs'

/-- From a test too early, `c` and `d` both get in. -/
theorem run_both_enter {s : State ι} {c d : ι} (hcd : c ≠ d) {q : Point}
    (hq : q = .admitted ∨ q = .counting 0) (h : Pair s c d (.closed, q, 0)) :
    ∃ more s', run step s (.call c :: more) = some s' ∧ Pair s' c d (.opened 0, .opened 0, 1) := by
  rcases hq with rfl | rfl
  · obtain ⟨s', hs', hpair⟩ := run_duo hcd [true, false, true, false, true] h
    exact ⟨_, s', hs', hpair⟩
  · obtain ⟨s', hs', hpair⟩ := run_duo hcd [true, true, false, true] h
    exact ⟨_, s', hs', hpair⟩

/-- When both close the device, `device_open` is counted down twice. -/
theorem run_both_leave {s : State ι} {c d : ι} (hcd : c ≠ d)
    (h : Pair s c d (.opened 0, .opened 0, 1)) :
    ∃ more s', run step s more = some s' ∧ Jammed s' := by
  obtain ⟨s', hs', hc, hd, hn, hrest⟩ := run_duo hcd [true, true, false, false] h
  refine ⟨_, s', hs', ?_, fun e => ?_⟩
  · rw [hn]
    decide
  · by_cases hec : e = c
    · rw [hec]
      exact hc
    · by_cases hed : e = d
      · rw [hed]
        exact hd
      · exact hrest e hec hed

theorem jammed_run {s s' : State ι} {acts : List (Act ι)} (h : Jammed s)
    (hrun : run step s acts = some s') : s' = s := by
  induction acts with
  | nil =>
      cases hrun
      rfl
  | cons a acts ih =>
      obtain ⟨m, hm, hrun⟩ := Option.bind_eq_some_iff.mp hrun
      cases step_iff.mp hm with
      | busy => exact ih hrun
      | enter c hp hn => exact absurd hn h.1
      | load c hp | store c n hp | leave c ppos hp | close c n hp | read c count left ppos hp =>
          rw [h.2 c] at hp
          cases hp

/-- In a run in which no client finds `device_open` clear while another is between test and
    count: at most one client is inside, and `device_open` is 0 when there is none. Where such a
    step is possible, it leads to two clients that have the device open, and from there the
    device can be closed so that nobody ever opens it again. -/
theorem exclusive_run {acts : List (Act ι)} {s : State ι}
    (hC : AllSteps step Settled State.init acts) (hrun : run step State.init acts = some s) :
    (∀ c d, s.point c ≠ .closed → s.point d ≠ .closed → c = d) ∧
    ((∀ c, s.point c = .closed) → s.device_open = 0) ∧
    ∀ c, ¬ Settled s (.call c) → ∃ more s', run step s (.call c :: more) = some s' ∧ Shared s' ∧
      ∃ more' s'', run step s' more' = some s'' ∧ Jammed s'' ∧
        ∀ last e, run step s'' last = some e → e = s'' := by
  have hgood := good_run hC hrun
  refine ⟨fun c d hc hd => ?_, fun hall => ?_, fun c hno => ?_⟩
  · by_contra hcd
    exact hc ((hgood.owner hd).2 c hcd)
  · rcases hgood with ⟨hn, -⟩ | ⟨o, howns, -⟩
    · exact hn
    · rw [hall o] at howns
      cases howns
  · unfold Settled at hno
    push Not at hno
    obtain ⟨hc, hn, d, hd⟩ := hno
    have hcd : c ≠ d := by
      rintro rfl
      rw [hc] at hd
      exact hd rfl
    have hin : s.point d ≠ .closed := by
      intro hclosed
      rw [hclosed] at hd
      exact hd rfl
    obtain ⟨howns, halone⟩ := hgood.owner hin
    have hq : s.point d = .admitted ∨ s.point d = .counting 0 := by
      cases hpoint : s.point d with
      | admitted => exact .inl rfl
      | counting m =>
          rw [hpoint] at howns
          rw [howns.1]
          exact .inr rfl
      | closed | opened p | leaving m =>
          rw [hpoint] at hd
          exact absurd rfl hd
    obtain ⟨more, s', hs', hpair⟩ :=
      run_both_enter hcd hq ⟨hc, rfl, hn, fun e _ hed => halone e hed⟩
    obtain ⟨more', s'', hs'', hjammed⟩ := run_both_leave hcd hpair
    exact ⟨more, s', hs', ⟨c, d, hcd, ⟨0, hpair.1⟩, 0, hpair.2.1⟩, more', s'', hs'', hjammed,
      fun last e he => jammed_run hjammed he⟩

/-- The first of two clients is past its test; the second would find `device_open` clear. -/
theorem exclusive_run_two : ∃ s : State Bool, run step State.init [.call true] = some s ∧
    (∀ c d, s.point c ≠ .closed → s.point d ≠ .closed → c = d) ∧
    ∃ more s', run step s (.call false :: more) = some s' ∧ Shared s' := by
  have hrun : run step (State.init : State Bool) [.call true] =
      some (State.init.goto true .admitted) := rfl
  obtain ⟨hone, -, hbad⟩ := exclusive_run (by decide) hrun
  obtain ⟨more, s', hs', hshared, -⟩ := hbad false (by decide)
  exact ⟨_, hrun, hone, more, s', hs', hshared⟩

end KernelBasecamp.Chrdev
