/-
  What the clients of the device of exercise11 read.

  Every open file has a position of its own, and `dev_read` moves it once, from 0 to the end
  of the text. Until then a read fails when its buffer is shorter than the text or the copy
  fails; from then on a read returns 0, except that one with a short buffer fails even there.

  * `text_once`: however the calls of the clients interleave, a client that has opened the
    device has received the text once if one of its reads so far was long enough and copied,
    and nothing otherwise; and what its next read returns.
-/
import KernelBasecamp.Chrdev.Device

namespace KernelBasecamp.Chrdev

open Lib

variable {ι : Type} [DecidableEq ι]

/-- A read of `c` that can deliver the text. -/
def Act.delivers (c : ι) : Act ι → Bool
  | .call _ => false
  | .read d count left => decide (d = c ∧ hello_str.length ≤ count ∧ left = 0)

/-- The client has the file open and has received the text, or not. -/
def Reading (s : State ι) (c : ι) (got : Bool) : Prop :=
  s.point c = .opened (if got then hello_str.length else 0) ∧
    s.received c = if got then hello_str else []

theorem dev_read_start {left count : Nat} :
    dev_read left count 0 =
      if hello_str.length ≤ count ∧ left = 0 then
        ((hello_str.length : Int), (hello_str.length : Int))
      else (-EINVAL, 0) := by
  unfold dev_read
  by_cases hcount : hello_str.length ≤ count
  · rw [if_neg (Nat.not_lt.mpr hcount), if_neg (not_not.mpr rfl)]
    by_cases hleft : left = 0
    · rw [if_neg (not_not.mpr hleft), if_pos ⟨hcount, hleft⟩]
    · rw [if_pos hleft, if_neg (fun h => hleft h.2)]
  · rw [if_pos (Nat.not_le.mp hcount), if_neg (fun h => hcount h.1)]

/-- At the end nothing more is read, and the position stays. -/
theorem dev_read_end (left count : Nat) :
    dev_read left count hello_str.length =
      (if count < hello_str.length then -EINVAL else 0, (hello_str.length : Int)) := by
  unfold dev_read
  dsimp only
  split
  · rfl
  · exact if_pos (by decide)

/-- A client that does not close the file has received the text once it has made a read that
    delivers it. -/
theorem reading_step {s s' : State ι} {a : Act ι} {c : ι} {got : Bool} (h : Reading s c got)
    (ha : a ≠ .call c) (hs : Step s a s') : Reading s' c (got || a.delivers c) := by
  cases hs with
  | busy => simpa [Act.delivers] using h
  | enter d | load d | store d | leave d | close d =>
      -- another client moves
      have hcd : c ≠ d := fun hcd => ha (by rw [hcd])
      obtain ⟨hpoint, hreceived⟩ := h
      rw [Act.delivers, Bool.or_false]
      refine ⟨?_, ?_⟩
      · rw [goto_point, Function.update_of_ne hcd]
        exact hpoint
      · first
        | exact hreceived
        | exact (Function.update_of_ne hcd _ _).trans hreceived
  | read d count left ppos hp =>
      obtain ⟨hpoint, hreceived⟩ := h
      by_cases hcd : c = d
      · subst hcd
        rw [hpoint, Point.opened.injEq] at hp
        unfold Reading
        rw [goto_point, Function.update_self]
        change _ ∧ Function.update s.received c _ c = _
        rw [Function.update_self, hreceived, ← hp]
        cases got with
        | true =>
            have hret : (if count < hello_str.length then -EINVAL else 0) ≤ 0 := by
              split <;> decide
            rw [Bool.true_or, if_pos rfl, if_pos rfl, dev_read_end, Int.toNat_of_nonpos hret,
              List.take_zero, List.append_nil]
            exact ⟨rfl, rfl⟩
        | false =>
            rw [Bool.false_or, if_neg Bool.false_ne_true, if_neg Bool.false_ne_true,
              dev_read_start]
            by_cases hdel : hello_str.length ≤ count ∧ left = 0
            · rw [if_pos hdel, show (Act.read c count left).delivers c = true from
                decide_eq_true ⟨rfl, hdel⟩]
              exact ⟨rfl, rfl⟩
            · rw [if_neg hdel, show (Act.read c count left).delivers c = false from
                decide_eq_false fun h => hdel h.2]
              exact ⟨rfl, rfl⟩
      · have hother : (Act.read d count left).delivers c = false :=
          decide_eq_false fun h => hcd h.1.symm
        rw [hother, Bool.or_false]
        refine ⟨?_, ?_⟩
        · rw [goto_point, Function.update_of_ne hcd]
          exact hpoint
        · exact (Function.update_of_ne hcd _ _).trans hreceived

theorem reading_run {s s' : State ι} {c : ι} {got : Bool} {more : List (Act ι)}
    (h : Reading s c got) (hquiet : ∀ a ∈ more, a ≠ .call c) (hrun : run step s more = some s') :
    Reading s' c (got || more.any (Act.delivers c)) := by
  induction more generalizing s got with
  | nil =>
      cases hrun
      simpa using h
  | cons a more ih =>
      obtain ⟨m, hm, hrun⟩ := Option.bind_eq_some_iff.mp hrun
      have hnext := reading_step h (hquiet a List.mem_cons_self) (step_iff.mp hm)
      have hrest := ih hnext (fun b hb => hquiet b (List.mem_cons_of_mem a hb)) hrun
      rwa [Bool.or_assoc, ← List.any_cons] at hrest

/-- From the call that opens the file for `c` on, up to any later state of a run in which `c`
    has not begun to close it: `c` has received the text exactly once if one of its reads was
    long enough and its copy complete, and nothing otherwise. A next read with a short buffer
    fails in either case; another one returns 0 if the text has been received, and else fails or
    delivers it. -/
theorem text_once {s₀ s s' : State ι} {c : ι} {n : Int} {more : List (Act ι)}
    (hpoint : s₀.point c = .counting n) (hopen : step s₀ (.call c) = some s)
    (hquiet : ∀ a ∈ more, a ≠ .call c) (hrun : run step s more = some s') :
    s'.received c = (if more.any (Act.delivers c) then hello_str else []) ∧
    s'.point c = .opened (if more.any (Act.delivers c) then hello_str.length else 0) ∧
    ∀ ppos, s'.point c = .opened ppos → ∀ count left, (dev_read left count ppos).1 =
      if count < hello_str.length then -EINVAL
      else if more.any (Act.delivers c) then 0
      else if left ≠ 0 then -EINVAL
      else hello_str.length := by
  have hstart : Reading s c false := by
    cases step_iff.mp hopen with
    | store c n hp =>
        refine ⟨?_, ?_⟩
        · rw [goto_point, Function.update_self]
          rfl
        · exact Function.update_self c [] s₀.received
    | busy c hp | enter c hp | load c hp | leave c ppos hp | close c m hp =>
        rw [hpoint] at hp
        cases hp
  have hend := reading_run hstart hquiet hrun
  rw [Bool.false_or] at hend
  refine ⟨hend.2, hend.1, fun ppos hppos count left => ?_⟩
  rw [hend.1, Point.opened.injEq] at hppos
  subst hppos
  cases more.any (Act.delivers c) with
  | true => rw [if_pos rfl, dev_read_end, if_pos rfl]
  | false =>
      rw [if_neg Bool.false_ne_true, dev_read_start, if_neg Bool.false_ne_true]
      by_cases hcount : count < hello_str.length
      · rw [if_pos hcount, if_neg fun h => Nat.not_lt.mpr h.1 hcount]
      · rw [if_neg hcount]
        by_cases hleft : left = 0
        · rw [if_pos ⟨Nat.not_lt.mp hcount, hleft⟩, if_neg (not_not.mpr hleft)]
        · rw [if_neg fun h => hleft h.2, if_pos hleft]

/-- The client `true` is about to have the device open. -/
def openingState : State Bool := (State.init.goto true .admitted).goto true (.counting 0)

/-- A short read, a long one and another, with a call of a second client in between; after that a
    long read returns 0 and a short one fails. -/
theorem text_once_long : ∃ s s' : State Bool, step openingState (.call true) = some s ∧
    run step s [.read true 5 0, .call false, .read true 64 0, .read true 64 0] = some s' ∧
    s'.received true = hello_str ∧ ∃ ppos, s'.point true = .opened ppos ∧
      (dev_read 0 64 ppos).1 = 0 ∧ (dev_read 0 5 ppos).1 = -EINVAL := by
  obtain ⟨s, hs⟩ := Option.isSome_iff_exists.mp
    (by decide : (step openingState (.call true)).isSome = true)
  have hrest : ((step openingState (.call true)).bind fun s => run step s
      [.read true 5 0, .call false, .read true 64 0, .read true 64 0]).isSome = true := by decide
  rw [hs, Option.bind_some] at hrest
  obtain ⟨s', hs'⟩ := Option.isSome_iff_exists.mp hrest
  obtain ⟨hreceived, hpoint, hnext⟩ := text_once rfl hs (by decide) hs'
  exact ⟨s, s', hs, hs', hreceived, _, hpoint, hnext _ hpoint 64 0, hnext _ hpoint 5 0⟩

end KernelBasecamp.Chrdev
