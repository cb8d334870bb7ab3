/-
  What a failed call leaves behind.

  `dev_write` has appended the name and ": " before `copy_from_user` can fail; `proc_write_add`
  looks at neither `left` nor the result of `device_create`, and counts the user; and
  `proc_write_reset` has set the size and freed the log before `kmalloc` can fail. Only a number
  that does not parse is turned away in time.

  * `atomic_iff`: a failed call leaves the log, the size, the count and the user table as they
    were exactly when it is `Harmless`.
  * `lost_log`: a reset without memory takes the log away.
-/
import KernelBasecamp.Chat.Log

namespace KernelBasecamp.Chat

open Lib Lib.CMem

/-- The calls that can fail half-way. `device` is the result of `device_create`, which
    `proc_write_add` does not look at. -/
inductive Op where
  | write (index : Nat) (buf : List UInt8) (count left : Nat)
  | add (buffer : List UInt8) (length left : Nat) (device : Bool)
  | reset (length : Nat) (parsed : Option UInt64) (ok : Bool)
  deriving DecidableEq, Repr

def Op.act : Op → Act
  | .write index buf count left => .write index buf count left
  | .add buffer length left _ => .add buffer length left
  | .reset length parsed ok => .reset length parsed ok

/-- A helper of the call fails: a copy leaves bytes behind, `device_create` or `kmalloc` fails,
    the number does not parse. Minor 0 copies nothing, and `kmalloc(0)` does not fail. -/
def Op.Fails : Op → Prop
  | .write index _ _ left => index ≠ 0 ∧ 0 < left
  | .add _ _ left device => 0 < left ∨ device = false
  | .reset _ none _ => True
  | .reset _ (some n) ok => n ≠ 0 ∧ (n * 1024).toNat ≠ 0 ∧ ok = false

/-- The log, or `none` without a buffer. -/
def State.contents (s : State) : Option (List UInt8) :=
  s.chat_buffer.map fun m => m.takeWhile fun c => c != 0

/-- Everything that the calls share is as it was. -/
structure Unchanged (s s' : State) : Prop where
  contents : s'.contents = s.contents
  chat_buffer_size : s'.chat_buffer_size = s.chat_buffer_size
  user_count : s'.user_count = s.user_count
  users : s'.users = s.users

/-- The failures that change nothing: a number that does not parse, and a reset without memory
    when an earlier one of that size has already taken the buffer away. -/
def Harmless (s : State) : Op → Prop
  | .reset _ none _ => True
  | .reset _ (some n) _ => s.chat_buffer = none ∧ s.chat_buffer_size = (n * 1024).toNat
  | _ => False

/-- A write that gets as far as the copy has changed the log, whatever is copied. -/
theorem contents_dev_write {s : State} {index count left : Nat} {buf : List UInt8}
    (hindex : index ≠ 0) {r : State × Nat} (hr : dev_write s index buf count left = some r) :
    r.1.contents ≠ s.contents := by
  obtain ⟨t, d, u, e, bytes, hm, ht, -, hu, -, -, -, rfl⟩ := (dev_write_iff hindex).mp hr
  have hall : ∀ c ∈ t, (c != 0) = true := by
    intro c hc
    exact bne_iff_ne.mpr fun h0 => ht (h0 ▸ hc)
  unfold State.contents
  rw [hm, State.setBuffer_chat_buffer, Option.map_some, Option.map_some, takeWhile_append_nul ht,
    List.append_assoc, List.takeWhile_append_of_pos hall, message, literal_colon]
  intro h
  have hnil := List.append_right_eq_self.mp (Option.some.inj h)
  -- what follows the old log starts with a byte of the name or with ':'
  cases u with
  | nil => simp at hnil
  | cons c u =>
      have hc : (c != 0) = true := bne_iff_ne.mpr (Ne.symm (List.ne_of_not_mem_cons hu))
      simp [hc] at hnil

/-- A failed call leaves everything as it was exactly when the failure is that of a parse, or
    of a `kmalloc` that finds the buffer already gone. -/
theorem atomic_iff {s : State} {op : Op} (hfail : op.Fails) :
    (∃ s', step s op.act = some s' ∧ Unchanged s s') ↔ Harmless s op := by
  cases op with
  | write index buf count left =>
      refine ⟨?_, False.elim⟩
      rintro ⟨s', hs, h⟩
      obtain ⟨r, hr, rfl⟩ := Option.map_eq_some_iff.mp hs
      exact contents_dev_write hfail.1 hr h.contents
  | add buffer length left device =>
      refine ⟨?_, False.elim⟩
      rintro ⟨s', hs, h⟩
      obtain ⟨r, hr, rfl⟩ := Option.map_eq_some_iff.mp hs
      unfold proc_write_add at hr
      simp only [Option.bind_eq_bind, Option.bind_eq_some_iff] at hr
      obtain ⟨_, _, _, _, _, _, hr⟩ := hr
      cases hr
      exact absurd h.user_count (Nat.succ_ne_self _)
  | reset length parsed ok =>
      cases parsed with
      | none => exact ⟨fun _ => trivial, fun _ => ⟨s, rfl, rfl, rfl, rfl, rfl⟩⟩
      | some n =>
          obtain ⟨hn, hsize, rfl⟩ := hfail
          have hnull : kmalloc (n * 1024).toNat false = none := by
            unfold kmalloc
            rw [if_neg hsize]
            rfl
          have hstep := step_reset s hn length false
          rw [hnull] at hstep
          change (∃ s', step s (.reset length (some n) false) = some s' ∧ Unchanged s s') ↔ _
          rw [hstep]
          constructor
          · rintro ⟨s', hs, h⟩
            cases hs
            exact ⟨Option.map_eq_none_iff.mp h.contents.symm, h.chat_buffer_size.symm⟩
          · rintro ⟨hbuf, hsize'⟩
            refine ⟨_, rfl, ?_, hsize'.symm, rfl, rfl⟩
            unfold State.contents
            rw [hbuf]

/-- A number that does not parse. -/
theorem atomic_iff_unparsed :
    ∃ s', step State.loaded (.reset 4 none true) = some s' ∧ Unchanged State.loaded s' := by
  have hfail : Op.Fails (.reset 4 none true) := trivial
  exact (atomic_iff hfail).mpr trivial

/-- A reset to 1024 bytes without memory: the size is the same, and the log is gone. -/
theorem lost_log : ¬ ∀ (acts : List Act) (s s' : State) (op : Op),
    run step State.loaded acts = some s → op.Fails → step s op.act = some s' →
      Unchanged s s' := by
  intro hall
  have hfail : Op.Fails (.reset 2 (some 1) false) := ⟨by decide, by decide, rfl⟩
  have hstep := step_reset State.loaded (n := 1) (by decide) 2 false
  have h := hall [] State.loaded _ (.reset 2 (some 1) false) rfl hfail hstep
  exact absurd h.contents nofun

end KernelBasecamp.Chat
