/-
  `reminder_exit` of the reminder module on the heap that holds the reminders.

  `list_for_each_safe` reads the link of a node before the body of the loop frees it. The timer
  has been cancelled by then, and the class is removed afterwards; both are left out.
  `reminder_exit_frees`: every reminder is reported and freed once, in the order of the list, and
  no link of a freed one is followed.
-/
import KernelBasecamp.Lib.LinkedList
import KernelBasecamp.Reminders.Show

namespace KernelBasecamp.Reminders

open Lib

inductive Event where
  /-- `printk(KERN_INFO "deleting active: %lld", seconds)` -/
  | deleting (seconds : Int)
  | free (id : Nat)
  deriving DecidableEq, Repr

/-- `list_for_each_safe (i, i_safe, &reminders)` from `i` on. -/
def exitLoop (h : ListHeap Reminder) (i i_safe : Link) : Option (List Event) :=
  match i with
  | .head => some []
  | .poison => none
  | .node id => do
      let r ← h.nodes.lookup id
      match _hd : h.list_del id with
      | none => none
      | some h₁ =>
          match _hk : h₁.kfree id with
          | none => none
          | some h₂ =>
              let next ← h₂.follow i_safe
              let rest ← exitLoop h₂ i_safe next
              some (.deleting (r.data.trigger_time.tdiv NS) :: .free id :: rest)
termination_by h.size
decreasing_by exact ListHeap.size_list_del _hd ▸ ListHeap.size_kfree _hk

def reminder_exit (h : ListHeap Reminder) : Option (List Event) := do
  let i_safe ← h.follow h.next
  exitLoop h h.next i_safe

/-- What is done with each reminder of the list. -/
def deletions (rs : List (Nat × Reminder)) : List Event :=
  rs.flatMap fun r => [.deleting (r.2.trigger_time.tdiv NS), .free r.1]

theorem exitLoop_node {h h₁ h₂ : ListHeap Reminder} {id : Nat} {r : Node Reminder} {i_safe : Link}
    (hr : h.nodes.lookup id = some r) (hd : h.list_del id = some h₁) (hk : h₁.kfree id = some h₂) :
    exitLoop h (.node id) i_safe = (h₂.follow i_safe).bind fun next =>
      (exitLoop h₂ i_safe next).bind fun rest =>
        some (.deleting (r.data.trigger_time.tdiv NS) :: .free id :: rest) := by
  rw [exitLoop]
  simp only [hr, Option.bind_eq_bind, Option.bind_some]
  split
  · next hnone => rw [hd] at hnone; cases hnone
  · next h₁' hd' =>
      rw [hd] at hd'
      cases hd'
      split
      · next hnone => rw [hk] at hnone; cases hnone
      · next h₂' hk' =>
          rw [hk] at hk'
          cases hk'
          rfl

/-- The node after the one that is freed is the first of the list that is left. -/
theorem exitLoop_linked {h : ListHeap Reminder} {rs : List (Nat × Reminder)} (hl : h.Linked rs)
    {i_safe : Link} (hsafe : h.follow h.next = some i_safe) :
    exitLoop h h.next i_safe = some (deletions rs) := by
  induction rs generalizing h i_safe with
  | nil =>
      have hnext : h.next = .head := hl.chain.1
      rw [hnext, exitLoop]
      rfl
  | cons r rs ih =>
      obtain ⟨hnext, q, hnode, -⟩ := hl.first
      obtain ⟨h₁, h₂, hdel, hfree, hfollow, hrest⟩ := hl.unlink
      rw [hnext, hfollow, Option.some.injEq] at hsafe
      obtain ⟨next, hfirst⟩ := hrest.follow_first
      rw [hnext, exitLoop_node hnode hdel hfree, ← hsafe, hfirst, Option.bind_some,
        ih hrest hfirst]
      rfl

/-- Every reminder is reported and freed once, and no link of a freed one is followed. -/
theorem reminder_exit_frees {h : ListHeap Reminder} {rs : List (Nat × Reminder)}
    (hl : h.Linked rs) : reminder_exit h = some (deletions rs) := by
  obtain ⟨i_safe, hsafe⟩ := hl.follow_first
  unfold reminder_exit
  rw [hsafe]
  exact exitLoop_linked hl hsafe

end KernelBasecamp.Reminders
