/-
  The reminder list in memory, and the timer that interrupts a writer.

  The pending reminders are nodes of a circular doubly linked list. `add_message` runs in the
  context of the process that writes, and the timer's `trigger_messages` may interrupt it
  anywhere: on one processor the interrupt runs to its end between two accesses of the writer
  to the list. The loop of `add_message` reads one entry in a step; `list_add_tail` reads
  `it->prev` and makes four stores, each a step. There is one writer at a time. An access to
  freed memory is a fault (`none`), and freed memory is not handed out again.

  `added` records the reminders that have been linked; the code does not read it.
-/
import KernelBasecamp.Lib.ListCursor
import KernelBasecamp.Reminders.Delivery

namespace KernelBasecamp.Reminders

open Lib

/-! ## The timer -/

/-- What a walk of `trigger_messages` leaves. -/
structure Sweep where
  heap : ListHeap Reminder
  reads : Nat
  delivered : List (Reminder × Int)
  freed : List Nat

/-- `list_for_each_safe (i, in, &reminders)` from `i` on. Each round but the last frees an
    entry, so there are no more of them than `fuel` allows. -/
def triggerLoop (ktime_get : Nat → Int) :
    Nat → ListHeap Reminder → Nat → Link → Link → Option Sweep
  | 0, _, _, _, _ => none
  | _ + 1, h, reads, .head, _ => some ⟨h, reads, [], []⟩
  | _ + 1, _, _, .poison, _ => none
  | fuel + 1, h, reads, .node id, i_next => do
      let r ← h.nodes.lookup id
      if r.data.trigger_time ≤ ktime_get reads then
        let h ← h.list_del id
        let h ← h.kfree id
        let next ← h.follow i_next
        let rest ← triggerLoop ktime_get fuel h (reads + 1) i_next next
        some { rest with
          delivered := (r.data, ktime_get reads) :: rest.delivered, freed := id :: rest.freed }
      else some ⟨h, reads + 1, [], []⟩

def triggerHeap (ktime_get : Nat → Int) (h : ListHeap Reminder) (reads : Nat) : Option Sweep := do
  let i_next ← h.follow h.next
  triggerLoop ktime_get (h.size + 1) h reads h.next i_next

/-! ## The writer -/

/-- The stores of `list_add_tail`, in their order. -/
inductive LinkStore where
  | next_prev
  | new_next
  | new_prev
  | prev_next
  deriving DecidableEq, Repr

/-- Where the writer stands in `add_message` with its reminder `r`. -/
inductive Writer where
  | idle
  /-- at the test of `list_for_each` -/
  | walk (r : Nat) (it : Link)
  /-- before `list_add_tail(&r->next, it)` -/
  | found (r : Nat) (it : Link)
  /-- before a store of `list_add_tail` -/
  | store (i : LinkStore) (r : Nat) (it prev : Link)
  deriving DecidableEq, Repr

structure Kernel where
  heap : ListHeap Reminder
  writer : Writer
  /-- entries handed out by `kmalloc` so far -/
  allocated : Nat
  reads : Nat
  delivered : List (Reminder × Int)
  added : List Reminder

/-- `LIST_HEAD(reminders)` -/
def Kernel.init : Kernel := ⟨⟨.head, .head, ∅⟩, .idle, 0, 0, [], []⟩

inductive Move where
  /-- `kmalloc`, and the call of `add_message` -/
  | add (r : Reminder)
  /-- the next access of the writer -/
  | go
  | tick
  deriving DecidableEq, Repr

/-- The next access of the writer. -/
def writerStep (k : Kernel) : Option Kernel :=
  match k.writer with
  | .idle => none
  | .walk r .head => some { k with writer := .found r .head }
  | .walk _ .poison => none
  | .walk r (.node id) => do
      let e ← k.heap.nodes.lookup id
      let new ← k.heap.nodes.lookup r
      if e.data.trigger_time > new.data.trigger_time then
        some { k with writer := .found r (.node id) }
      else some { k with writer := .walk r e.next }
  | .found r it => do
      let prev ← k.heap.followPrev it
      some { k with writer := .store .next_prev r it prev }
  | .store .next_prev r it prev => do
      let h ← k.heap.setPrev it (.node r)
      some { k with heap := h, writer := .store .new_next r it prev }
  | .store .new_next r it prev => do
      let h ← k.heap.setNext (.node r) it
      some { k with heap := h, writer := .store .new_prev r it prev }
  | .store .new_prev r it prev => do
      let h ← k.heap.setPrev (.node r) prev
      some { k with heap := h, writer := .store .prev_next r it prev }
  | .store .prev_next r _ prev => do
      let new ← k.heap.nodes.lookup r
      let h ← k.heap.setNext prev (.node r)
      some { k with heap := h, writer := .idle, added := k.added ++ [new.data] }

def Kernel.step (ktime_get : Nat → Int) (k : Kernel) : Move → Option Kernel
  | .add r =>
      if k.writer = .idle then
        some { k with
          heap := { k.heap with nodes := k.heap.nodes.insert k.allocated ⟨.poison, .poison, r⟩ }
          writer := .walk k.allocated k.heap.next
          allocated := k.allocated + 1 }
      else none
  | .go => writerStep k
  | .tick => (triggerHeap ktime_get k.heap k.reads).map fun t =>
      { k with heap := t.heap, reads := t.reads, delivered := k.delivered ++ t.delivered }

/-- The links the writer still uses. -/
def Writer.holds : Writer → List Link
  | .idle => []
  | .walk _ it => [it]
  | .found _ it => [it]
  | .store _ _ it prev => [it, prev]

/-- The timer frees no entry to which the writer holds a link. -/
def Undisturbed (ktime_get : Nat → Int) (k : Kernel) : Move → Prop
  | .tick => ∃ t ∈ triggerHeap ktime_get k.heap k.reads,
      ∀ id ∈ t.freed, .node id ∉ k.writer.holds
  | _ => True

instance (ktime_get : Nat → Int) (k : Kernel) : ∀ m, Decidable (Undisturbed ktime_get k m)
  | .tick => inferInstanceAs (Decidable (∃ t ∈ triggerHeap ktime_get k.heap k.reads,
      ∀ id ∈ t.freed, .node id ∉ k.writer.holds))
  | .add _ => inferInstanceAs (Decidable True)
  | .go => inferInstanceAs (Decidable True)

/-! ## A walk of the timer, in front of a position -/

section

variable {ktime_get : Nat → Int} {h : ListHeap Reminder} {as bs : List (Nat × Reminder)}
  {it back : Link}

/-- The reminders of a list of nodes. -/
def contents (xs : List (Nat × Reminder)) : List Reminder := xs.map Prod.snd

theorem triggerLoop_due {fuel reads id : Nat} {h₁ h₂ : ListHeap Reminder} {r : Node Reminder}
    {i_next : Link} (hr : h.nodes.lookup id = some r) (hdue : r.data.trigger_time ≤ ktime_get reads)
    (hdel : h.list_del id = some h₁) (hfree : h₁.kfree id = some h₂) :
    triggerLoop ktime_get (fuel + 1) h reads (.node id) i_next =
      (h₂.follow i_next).bind fun next =>
        (triggerLoop ktime_get fuel h₂ (reads + 1) i_next next).map fun rest =>
          { rest with
            delivered := (r.data, ktime_get reads) :: rest.delivered
            freed := id :: rest.freed } := by
  rw [triggerLoop]
  simp only [hr, Option.bind_eq_bind, Option.bind_some, if_pos hdue, hdel, hfree]
  congr 1
  funext next
  cases triggerLoop ktime_get fuel h₂ (reads + 1) i_next next <;> rfl

theorem triggerLoop_later {fuel reads id : Nat} {r : Node Reminder} {i_next : Link}
    (hr : h.nodes.lookup id = some r) (hlater : ¬ r.data.trigger_time ≤ ktime_get reads) :
    triggerLoop ktime_get (fuel + 1) h reads (.node id) i_next =
      some ⟨h, reads + 1, [], []⟩ := by
  rw [triggerLoop]
  simp only [hr, Option.bind_eq_bind, Option.bind_some, if_neg hlater]

/-- The number of reminders that a walk of the list delivers. -/
def due (ktime_get : Nat → Int) (reads : Nat) (l : List Reminder) : Nat :=
  (trigger_messages ktime_get reads l).delivered.length

theorem due_cons_of_le {reads : Nat} {r : Reminder} {l : List Reminder}
    (hdue : r.trigger_time ≤ ktime_get reads) :
    due ktime_get reads (r :: l) = due ktime_get (reads + 1) l + 1 := by
  unfold due
  rw [trigger_messages, if_pos hdue]
  rfl

theorem due_cons_of_lt {reads : Nat} {r : Reminder} {l : List Reminder}
    (hlater : ¬ r.trigger_time ≤ ktime_get reads) : due ktime_get reads (r :: l) = 0 := by
  unfold due
  rw [trigger_messages, if_neg hlater]
  rfl

theorem due_le_length (reads : Nat) (l : List Reminder) : due ktime_get reads l ≤ l.length := by
  have hsplit := congrArg List.length (trigger_messages_split ktime_get reads l)
  rw [List.length_append, List.length_map] at hsplit
  unfold due
  omega

end

end KernelBasecamp.Reminders
