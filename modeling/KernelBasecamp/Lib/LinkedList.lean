/-
  Circular doubly linked lists in a heap, in the manner of `struct list_head`.

  The head of a list is an object of its own and is never freed. Its nodes are entries of a
  finite map; following a link of a node that is not there, or a poisoned link, is a fault
  (`none`).

  * `Linked h xs`: from the head on the list has the nodes of `xs`, in both directions.
  * `linked_heapOf`: every list of distinct nodes can be laid out.
  * `next_kfree`: the link of a node that has been freed cannot be followed.
  * `Linked.unlink`: deleting and freeing the first node leaves the rest linked.
-/
import Mathlib

namespace KernelBasecamp.Lib

universe u

/-- A pointer to a `struct list_head`. -/
inductive Link where
  | head
  | node (id : Nat)
  | poison
  deriving DecidableEq, Repr

structure Node (α : Type u) where
  prev : Link
  next : Link
  data : α
  deriving DecidableEq, Repr

/-- `prev` and `next` are the links of the head. -/
structure ListHeap (α : Type u) where
  prev : Link
  next : Link
  nodes : Finmap fun _ : Nat => Node α

namespace ListHeap

variable {α : Type u} {h h' : ListHeap α} {id : Nat}

/-! ## Operations -/

/-- `p->next`. -/
def follow (h : ListHeap α) : Link → Option Link
  | .head => some h.next
  | .node id => (h.nodes.lookup id).map Node.next
  | .poison => none

def setNext (h : ListHeap α) (p q : Link) : Option (ListHeap α) :=
  match p with
  | .head => some { h with next := q }
  | .node id => (h.nodes.lookup id).map fun n =>
      { h with nodes := h.nodes.insert id { n with next := q } }
  | .poison => none

def setPrev (h : ListHeap α) (p q : Link) : Option (ListHeap α) :=
  match p with
  | .head => some { h with prev := q }
  | .node id => (h.nodes.lookup id).map fun n =>
      { h with nodes := h.nodes.insert id { n with prev := q } }
  | .poison => none

/-- Unlink a node, and poison its links. -/
def list_del (h : ListHeap α) (id : Nat) : Option (ListHeap α) := do
  let entry ← h.nodes.lookup id
  let h ← h.setPrev entry.next entry.prev
  let h ← h.setNext entry.prev entry.next
  let h ← h.setNext (.node id) .poison
  h.setPrev (.node id) .poison

@[simp] theorem follow_node : h.follow (.node id) = (h.nodes.lookup id).map Node.next := rfl

@[simp] theorem setNext_head (q : Link) : h.setNext .head q = some { h with next := q } := rfl

@[simp] theorem setNext_node (q : Link) : h.setNext (.node id) q = (h.nodes.lookup id).map fun n =>
    { h with nodes := h.nodes.insert id { n with next := q } } := rfl

@[simp] theorem setPrev_node (q : Link) : h.setPrev (.node id) q = (h.nodes.lookup id).map fun n =>
    { h with nodes := h.nodes.insert id { n with prev := q } } := rfl

def kfree (h : ListHeap α) (id : Nat) : Option (ListHeap α) :=
  if id ∈ h.nodes then some { h with nodes := h.nodes.erase id } else none

theorem kfree_of_mem (hid : id ∈ h.nodes) :
    h.kfree id = some { h with nodes := h.nodes.erase id } := by
  unfold kfree
  rw [if_pos hid]

/-- The number of nodes. -/
def size (h : ListHeap α) : Nat := h.nodes.keys.card

theorem size_kfree (hk : h.kfree id = some h') : h'.size < h.size := by
  unfold kfree at hk
  split at hk
  · next hid =>
      cases hk
      unfold size
      rw [Finmap.keys_erase]
      exact Finset.card_erase_lt_of_mem (Finmap.mem_keys.mpr hid)
  · cases hk

theorem size_insert (hid : id ∈ h.nodes) (n : Node α) :
    size { h with nodes := h.nodes.insert id n } = h.size := by
  unfold size
  congr 1
  ext j
  rw [Finmap.mem_keys, Finmap.mem_keys, Finmap.mem_insert]
  exact or_iff_right_of_imp fun hj => hj ▸ hid

theorem size_setNext {p q : Link} (hs : h.setNext p q = some h') : h'.size = h.size := by
  cases p with
  | head => cases hs; rfl
  | poison => cases hs
  | node id =>
      obtain ⟨n, hn, rfl⟩ := Option.map_eq_some_iff.mp hs
      exact size_insert (Finmap.mem_of_lookup_eq_some hn) _

theorem size_setPrev {p q : Link} (hs : h.setPrev p q = some h') : h'.size = h.size := by
  cases p with
  | head => cases hs; rfl
  | poison => cases hs
  | node id =>
      obtain ⟨n, hn, rfl⟩ := Option.map_eq_some_iff.mp hs
      exact size_insert (Finmap.mem_of_lookup_eq_some hn) _

theorem size_list_del (hd : h.list_del id = some h') : h'.size = h.size := by
  unfold list_del at hd
  simp only [Option.bind_eq_bind, Option.bind_eq_some_iff] at hd
  obtain ⟨entry, -, h₁, h₁s, h₂, h₂s, h₃, h₃s, h₄s⟩ := hd
  rw [size_setPrev h₄s, size_setNext h₃s, size_setNext h₂s, size_setPrev h₁s]

/-- What has been freed cannot be read. -/
theorem next_kfree (hk : h.kfree id = some h') : h'.follow (.node id) = none := by
  unfold kfree at hk
  split at hk
  · cases hk
    exact congrArg (Option.map Node.next) (Finmap.lookup_erase id h.nodes)
  · cases hk

/-! ## Lists -/

/-- From `p` on, which comes after `prev`, the list has the nodes `xs`. -/
def Chain (h : ListHeap α) (prev p : Link) : List (Nat × α) → Prop
  | [] => p = .head ∧ h.prev = prev
  | (id, a) :: xs =>
      p = .node id ∧ ∃ q, h.nodes.lookup id = some ⟨prev, q, a⟩ ∧ Chain h (.node id) q xs

structure Linked (h : ListHeap α) (xs : List (Nat × α)) : Prop where
  chain : h.Chain .head h.next xs
  nodup : (xs.map Prod.fst).Nodup

theorem Chain.congr {prev p : Link} {xs : List (Nat × α)} (hc : h.Chain prev p xs)
    (hprev : h'.prev = h.prev)
    (hnodes : ∀ id ∈ xs.map Prod.fst, h'.nodes.lookup id = h.nodes.lookup id) :
    h'.Chain prev p xs := by
  induction xs generalizing prev p with
  | nil => exact ⟨hc.1, hprev.trans hc.2⟩
  | cons x xs ih =>
      obtain ⟨hp, q, hx, hrest⟩ := hc
      refine ⟨hp, q, (hnodes x.1 List.mem_cons_self).trans hx, ih hrest fun id hid => ?_⟩
      exact hnodes id (List.mem_cons_of_mem x.1 hid)

/-! ### Laying out a list -/

/-- The link to the first node. -/
def firstLink : List (Nat × α) → Link
  | [] => .head
  | (id, _) :: _ => .node id

/-- The link to the last node of a list that comes after `prev`. -/
def lastLink (prev : Link) : List (Nat × α) → Link
  | [] => prev
  | (id, _) :: xs => lastLink (.node id) xs

def layout (prev : Link) : List (Nat × α) → Finmap fun _ : Nat => Node α
  | [] => ∅
  | (id, a) :: xs => (layout (.node id) xs).insert id ⟨prev, firstLink xs, a⟩

def heapOf (xs : List (Nat × α)) : ListHeap α := ⟨lastLink .head xs, firstLink xs, layout .head xs⟩

theorem chain_layout {prev : Link} {xs : List (Nat × α)} (hxs : (xs.map Prod.fst).Nodup)
    (hprev : h.prev = lastLink prev xs)
    (hnodes : ∀ id ∈ xs.map Prod.fst, h.nodes.lookup id = (layout prev xs).lookup id) :
    h.Chain prev (firstLink xs) xs := by
  induction xs generalizing prev with
  | nil => exact ⟨rfl, hprev⟩
  | cons x xs ih =>
      obtain ⟨hx, hxs⟩ := List.nodup_cons.mp hxs
      refine ⟨rfl, firstLink xs, ?_, ih hxs hprev fun id hid => ?_⟩
      · rw [hnodes x.1 List.mem_cons_self]
        exact Finmap.lookup_insert _
      · rw [hnodes id (List.mem_cons_of_mem x.1 hid)]
        exact Finmap.lookup_insert_of_ne _ fun heq : id = x.1 => hx (heq ▸ hid)

theorem linked_heapOf {xs : List (Nat × α)} (hxs : (xs.map Prod.fst).Nodup) :
    (heapOf xs).Linked xs :=
  ⟨chain_layout hxs rfl fun _ _ => rfl, hxs⟩

/-! ### The first node -/

/-- The first node, and where its link leads. -/
theorem Linked.first {a : α} {xs : List (Nat × α)} (hl : h.Linked ((id, a) :: xs)) :
    h.next = .node id ∧ ∃ q, h.nodes.lookup id = some ⟨.head, q, a⟩ ∧ h.Chain (.node id) q xs :=
  hl.chain

/-- The link of what the head leads to can be followed. -/
theorem Linked.follow_first {xs : List (Nat × α)} (hl : h.Linked xs) :
    ∃ q, h.follow h.next = some q := by
  cases xs with
  | nil => exact ⟨h.next, by rw [hl.chain.1]; exact congrArg some hl.chain.1⟩
  | cons x xs =>
      obtain ⟨hnext, q, hx, -⟩ := hl.first
      exact ⟨q, by rw [hnext, follow_node, hx]; rfl⟩

/-- The first node of a chain is given another predecessor. -/
theorem Chain.setPrev {prev p : Link} {xs : List (Nat × α)} (hc : h.Chain prev p xs)
    (hxs : (xs.map Prod.fst).Nodup) (prev' : Link) :
    ∃ h', h.setPrev p prev' = some h' ∧ h'.Chain prev' p xs ∧
      ∀ id ∉ xs.map Prod.fst, h'.nodes.lookup id = h.nodes.lookup id := by
  cases xs with
  | nil =>
      obtain ⟨rfl, -⟩ := hc
      exact ⟨_, rfl, ⟨rfl, rfl⟩, fun _ _ => rfl⟩
  | cons x xs =>
      obtain ⟨rfl, q, hx, hrest⟩ := hc
      obtain ⟨hnot, -⟩ := List.nodup_cons.mp hxs
      refine ⟨_, by rw [setPrev_node, hx]; rfl, ⟨rfl, q, Finmap.lookup_insert _, ?_⟩, ?_⟩
      · exact hrest.congr rfl fun id hid =>
          Finmap.lookup_insert_of_ne _ fun heq : id = x.1 => hnot (heq ▸ hid)
      · exact fun id hid =>
          Finmap.lookup_insert_of_ne _ fun heq : id = x.1 => hid (heq ▸ List.mem_cons_self)

/-- Deleting the first node of a list and freeing it. -/
theorem Linked.unlink {a : α} {xs : List (Nat × α)} (hl : h.Linked ((id, a) :: xs)) :
    ∃ h₁ h₂, h.list_del id = some h₁ ∧ h₁.kfree id = some h₂ ∧
      h.follow (.node id) = some h₂.next ∧ h₂.Linked xs := by
  obtain ⟨-, q, hid, hrest⟩ := hl.first
  obtain ⟨hx, hxs⟩ := List.nodup_cons.mp hl.nodup
  obtain ⟨h₀, hset, hchain, hsame⟩ := hrest.setPrev hxs .head
  have hid₀ : h₀.nodes.lookup id = some ⟨.head, q, a⟩ := (hsame id hx).trans hid
  have hdel : h.list_del id = some
      { h₀ with
        next := q
        nodes := (h₀.nodes.insert id ⟨.head, .poison, a⟩).insert id ⟨.poison, .poison, a⟩ } := by
    unfold list_del
    simp [hid, hset, hid₀]
  refine ⟨_, _, hdel, kfree_of_mem (Finmap.mem_insert.mpr (.inl rfl)), ?_, ?_, hxs⟩
  · rw [follow_node, hid]
    rfl
  · refine hchain.congr rfl fun j hj => ?_
    have hne : j ≠ id := fun heq => hx (heq ▸ hj)
    rw [Finmap.lookup_erase_ne hne, Finmap.lookup_insert_of_ne _ hne,
      Finmap.lookup_insert_of_ne _ hne]

end ListHeap

end KernelBasecamp.Lib
