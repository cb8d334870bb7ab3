/-
  `messanger_exit` of the messenger module on the heap that holds the records.

  The list is walked with `list_for_each`, which reads the link of the record it stands on after
  the body of the loop has run; the body frees that record. `messanger_exit` runs when all
  stores have returned, so a field `task` is null or has the thread of its record. A thread that
  is stopped clears its field, in a record that is freed next; this is left out.

  * `unload_iff`: the walk meets its purpose on the empty list only.
  * `unload_fault`: with a single record it already follows a link that has been freed.
-/
import KernelBasecamp.Lib.LinkedList
import KernelBasecamp.Messanger.Store

namespace KernelBasecamp.Messanger

open Lib

/-- What the walk does with records and threads. -/
inductive Event where
  | visit (id : Nat)
  | stop (thread : Nat)
  | free (id : Nat)
  deriving DecidableEq, Repr

/-- `if (m->task) { kthread_stop(m->task); }`, with the threads that are alive: those left, and
    the one stopped. -/
def stopTask (live : List Nat) : Task → Option (List Nat × List Event)
  | .null => some (live, [])
  | .handle t => if t ∈ live then some (live.erase t, [.stop t]) else none
  | .other _ => none

/-- `list_for_each (it, &messages)` from `it` on. -/
def exitLoop (h : ListHeap Message) (live : List Nat) : Link → Option (List Event)
  | .head => some []
  | .poison => none
  | .node id => do
      let m ← h.nodes.lookup id
      let (live, stopped) ← stopTask live m.data.task
      match _hk : h.kfree id with
      | none => none
      | some h' =>
          let it ← h'.follow (.node id)
          let rest ← exitLoop h' live it
          some (.visit id :: stopped ++ .free id :: rest)
termination_by h.size
decreasing_by exact ListHeap.size_kfree _hk

def messanger_exit (h : ListHeap Message) (live : List Nat) : Option (List Event) :=
  exitLoop h live h.next

/-! ## What the walk is for -/

def visited (log : List Event) : List Nat :=
  log.filterMap fun
    | .visit id => some id
    | _ => none

def stopped (log : List Event) : List Nat :=
  log.filterMap fun
    | .stop thread => some thread
    | _ => none

def freed (log : List Event) : List Nat :=
  log.filterMap fun
    | .free id => some id
    | _ => none

/-- The thread behind a pointer that is not null. -/
def Task.thread? : Task → Option Nat
  | .handle t => some t
  | _ => none

/-- The walk ends without a fault, having visited each record once, stopped just the threads of
    the fields that are not null, and freed each record once. -/
def Unloads (h : ListHeap Message) (live : List Nat) (ms : List (Nat × Message)) : Prop :=
  ∃ log, messanger_exit h live = some log ∧
    visited log = ms.map Prod.fst ∧
    stopped log = ms.filterMap (fun m => m.2.task.thread?) ∧
    freed log = ms.map Prod.fst

/-- The link of the record just freed is always followed. -/
theorem exitLoop_node (h : ListHeap Message) (live : List Nat) (id : Nat) :
    exitLoop h live (.node id) = none := by
  rw [exitLoop]
  simp only [Option.bind_eq_bind, Option.bind_eq_none_iff]
  intro m _ t _
  split
  · rfl
  · next h' hk => rw [ListHeap.next_kfree hk, Option.bind_none]

/-- On any heap that holds the list, the walk does what it is for if and only if the list is
    empty. -/
theorem unload_iff {h : ListHeap Message} {ms : List (Nat × Message)} (hl : h.Linked ms)
    (live : List Nat) : Unloads h live ms ↔ ms = [] := by
  constructor
  · rintro ⟨log, hlog, -⟩
    cases ms with
    | nil => rfl
    | cons m ms =>
        have hnext : h.next = .node m.1 := hl.first.1
        unfold messanger_exit at hlog
        rw [hnext, exitLoop_node] at hlog
        cases hlog
  · rintro rfl
    have hnext : h.next = .head := hl.chain.1
    refine ⟨[], ?_, rfl, rfl, rfl⟩
    unfold messanger_exit
    rw [hnext, exitLoop]

/-- A message whose thread has ended. -/
def note : Message := ⟨250, 2000, [42, 42], .null⟩

theorem unload_iff_note : Unloads (ListHeap.heapOf [(0, note)]) [] [(0, note)] ↔
    [(0, note)] = [] :=
  unload_iff (ListHeap.linked_heapOf (by decide)) []

/-- A single record is enough. -/
theorem unload_fault : ¬ ∀ (h : ListHeap Message) (ms : List (Nat × Message)) (live : List Nat),
    h.Linked ms → (∀ m ∈ ms, m.2.task = .null ∨ ∃ t ∈ live, m.2.task = .handle t) →
    Unloads h live ms := by
  intro hall
  obtain ⟨log, hlog, -⟩ := hall (ListHeap.heapOf [(0, note)]) [(0, note)] []
    (ListHeap.linked_heapOf (by decide)) (fun m hm => .inl (List.mem_singleton.mp hm ▸ rfl))
  have hnone : messanger_exit (ListHeap.heapOf [(0, note)]) [] = none := exitLoop_node _ _ 0
  rw [hnone] at hlog
  cases hlog

end KernelBasecamp.Messanger
