/-
  A position in a circular doubly linked list, and what is done there.

  `Cursor h as it back bs`: the nodes of `as` come before the position and those of `bs` from
  it on; `it` is the link to the position, and the node there (or the head) has `back` as its
  link backwards. In a linked list `back` leads to the last node of `as` (`linked_iff`); in the
  middle of an insertion it may lead elsewhere.

  * `Cursor.unlink`: deleting and freeing the first node of the list, before the position.
  * `Cursor.open_`, `Cursor.close`: the first and the last store of an insertion. In between
    only the new node is written (`Cursor.congr`).
-/
import KernelBasecamp.Lib.LinkedList

namespace KernelBasecamp.Lib.ListHeap

universe u

variable {α : Type u} {h h' : ListHeap α} {id : Nat}

/-- `p->prev`. -/
def followPrev (h : ListHeap α) : Link → Option Link
  | .head => some h.prev
  | .node id => (h.nodes.lookup id).map Node.prev
  | .poison => none

/-- From `p` on, which comes after `prev`, the nodes `xs`, and behind them `it`. -/
def Segment (h : ListHeap α) (prev p : Link) : List (Nat × α) → Link → Prop
  | [], it => p = it
  | (id, a) :: xs, it =>
      p = .node id ∧ ∃ q, h.nodes.lookup id = some ⟨prev, q, a⟩ ∧ Segment h (.node id) q xs it

structure Cursor (h : ListHeap α) (as : List (Nat × α)) (it back : Link) (bs : List (Nat × α)) :
    Prop where
  before : h.Segment .head h.next as it
  behind : h.Chain back it bs
  nodup : ((as ++ bs).map Prod.fst).Nodup

theorem Segment.congr {prev p it : Link} {xs : List (Nat × α)} (hs : h.Segment prev p xs it)
    (hnodes : ∀ id ∈ xs.map Prod.fst, h'.nodes.lookup id = h.nodes.lookup id) :
    h'.Segment prev p xs it := by
  induction xs generalizing prev p with
  | nil => exact hs
  | cons x xs ih =>
      obtain ⟨hp, q, hx, hrest⟩ := hs
      refine ⟨hp, q, (hnodes x.1 List.mem_cons_self).trans hx, ih hrest fun id hid => ?_⟩
      exact hnodes id (List.mem_cons_of_mem x.1 hid)

theorem lastLink_append (prev : Link) (as bs : List (Nat × α)) :
    lastLink prev (as ++ bs) = lastLink (lastLink prev as) bs := by
  induction as generalizing prev with
  | nil => rfl
  | cons a as ih => exact ih (.node a.1)

/-- What comes before a node of the list matters only where the list is empty. -/
theorem lastLink_congr {as : List (Nat × α)} (has : as ≠ []) (p q : Link) :
    lastLink p as = lastLink q as := by
  cases as with
  | nil => exact absurd rfl has
  | cons a as => rfl

theorem lastLink_of_ne_nil (prev : Link) {as : List (Nat × α)} (has : as ≠ []) :
    ∃ id ∈ as.map Prod.fst, lastLink prev as = .node id := by
  induction as generalizing prev with
  | nil => exact absurd rfl has
  | cons a as ih =>
      by_cases hrest : as = []
      · subst hrest
        exact ⟨a.1, List.mem_cons_self, rfl⟩
      · obtain ⟨id, hid, heq⟩ := ih (.node a.1) hrest
        exact ⟨id, List.mem_cons_of_mem _ hid, heq⟩

/-- A list keeps its last node when nodes are taken off its front. -/
theorem lastLink_drop (prev : Link) {as : List (Nat × α)} {k : Nat} (hne : as.drop k ≠ []) :
    lastLink prev (as.drop k) = lastLink prev as := by
  have hsplit := lastLink_append prev (as.take k) (as.drop k)
  rw [List.take_append_drop] at hsplit
  rw [hsplit]
  exact lastLink_congr hne _ _

theorem chain_append {prev p : Link} {as bs : List (Nat × α)} :
    h.Chain prev p (as ++ bs) ↔
      ∃ it, h.Segment prev p as it ∧ h.Chain (lastLink prev as) it bs := by
  induction as generalizing prev p with
  | nil => exact ⟨fun hc => ⟨p, rfl, hc⟩, fun ⟨_, hp, hc⟩ => hp ▸ hc⟩
  | cons a as ih =>
      constructor
      · rintro ⟨hp, q, hq, hrest⟩
        obtain ⟨it, hseg, hc⟩ := ih.mp hrest
        exact ⟨it, ⟨hp, q, hq, hseg⟩, hc⟩
      · rintro ⟨it, ⟨hp, q, hq, hseg⟩, hc⟩
        exact ⟨hp, q, hq, ih.mpr ⟨it, hseg, hc⟩⟩

/-- A linked list at each of its positions. -/
theorem linked_iff {as bs : List (Nat × α)} :
    h.Linked (as ++ bs) ↔ ∃ it, h.Cursor as it (lastLink .head as) bs := by
  constructor
  · rintro ⟨hchain, hnodup⟩
    obtain ⟨it, hseg, hc⟩ := chain_append.mp hchain
    exact ⟨it, hseg, hc, hnodup⟩
  · rintro ⟨it, hseg, hc, hnodup⟩
    exact ⟨chain_append.mpr ⟨it, hseg, hc⟩, hnodup⟩

section

variable {as bs : List (Nat × α)} {it back : Link}

theorem Cursor.nodup_before (hc : h.Cursor as it back bs) : (as.map Prod.fst).Nodup := by
  have hn := hc.nodup
  rw [List.map_append] at hn
  exact (List.nodup_append.mp hn).1

theorem Cursor.nodup_behind (hc : h.Cursor as it back bs) : (bs.map Prod.fst).Nodup := by
  have hn := hc.nodup
  rw [List.map_append] at hn
  exact (List.nodup_append.mp hn).2.1

theorem Cursor.disjoint (hc : h.Cursor as it back bs) {i : Nat} (hi : i ∈ as.map Prod.fst) :
    i ∉ bs.map Prod.fst := by
  have hn := hc.nodup
  rw [List.map_append] at hn
  exact fun hb => (List.nodup_append.mp hn).2.2 i hi i hb rfl

/-- Nothing that the list is made of changes. -/
theorem Cursor.congr (hc : h.Cursor as it back bs) (hnext : h'.next = h.next)
    (hprev : h'.prev = h.prev)
    (hnodes : ∀ id ∈ (as ++ bs).map Prod.fst, h'.nodes.lookup id = h.nodes.lookup id) :
    h'.Cursor as it back bs := by
  rw [List.map_append] at hnodes
  refine ⟨?_, hc.behind.congr hprev fun i hi => hnodes i (List.mem_append_right _ hi), hc.nodup⟩
  rw [hnext]
  exact hc.before.congr fun i hi => hnodes i (List.mem_append_left _ hi)

/-! ### At the position -/

/-- At the end of the list. -/
theorem Cursor.at_head (hc : h.Cursor as .head back bs) : bs = [] := by
  cases bs with
  | nil => rfl
  | cons b bs => exact absurd hc.behind.1 (by simp)

/-- At a node of the list. -/
theorem Cursor.at_node (hc : h.Cursor as (.node id) back bs) :
    ∃ q a bs', bs = (id, a) :: bs' ∧ h.nodes.lookup id = some ⟨back, q, a⟩ ∧
      h.Chain (.node id) q bs' := by
  cases bs with
  | nil => exact absurd hc.behind.1 (by simp)
  | cons b bs =>
      obtain ⟨hid, q, hq, hrest⟩ := hc.behind
      obtain rfl := Link.node.inj hid
      exact ⟨q, b.2, bs, rfl, hq, hrest⟩

/-- The link backwards can be read. -/
theorem Cursor.followPrev (hc : h.Cursor as it back bs) : h.followPrev it = some back := by
  cases it with
  | head =>
      have hbs := hc.at_head
      subst hbs
      exact congrArg some hc.behind.2
  | node id =>
      obtain ⟨q, a, bs', -, hq, -⟩ := hc.at_node
      change (h.nodes.lookup id).map Node.prev = some back
      rw [hq]
      rfl
  | poison =>
      cases bs with
      | nil => exact absurd hc.behind.1 (by simp)
      | cons b bs => exact absurd hc.behind.1 (by simp)

theorem Segment.concat {prev p q : Link} {xs : List (Nat × α)} {a : α}
    (hs : h.Segment prev p xs (.node id))
    (hid : h.nodes.lookup id = some ⟨lastLink prev xs, q, a⟩) :
    h.Segment prev p (xs ++ [(id, a)]) q := by
  induction xs generalizing prev p with
  | nil => exact ⟨hs, q, hid, rfl⟩
  | cons x xs ih =>
      obtain ⟨hp, n, hx, hrest⟩ := hs
      exact ⟨hp, n, hx, ih hrest hid⟩

/-- One node on. -/
theorem Cursor.advance {a : α} (hc : h.Cursor as (.node id) (lastLink .head as) ((id, a) :: bs)) :
    ∃ q, h.nodes.lookup id = some ⟨lastLink .head as, q, a⟩ ∧
      h.Cursor (as ++ [(id, a)]) q (lastLink .head (as ++ [(id, a)])) bs := by
  obtain ⟨-, q, hid, hrest⟩ := hc.behind
  refine ⟨q, hid, hc.before.concat hid, ?_, ?_⟩
  · rw [lastLink_append]
    exact hrest
  · have hn := hc.nodup
    rwa [← List.singleton_append, ← List.append_assoc] at hn

/-- The link of what the head leads to can be followed. -/
theorem Cursor.follow_first (hc : h.Cursor as it back bs) : ∃ q, h.follow h.next = some q := by
  cases as with
  | nil =>
      have hnext : h.next = it := hc.before
      cases bs with
      | nil =>
          rw [hnext, hc.behind.1]
          exact ⟨h.next, rfl⟩
      | cons b bs =>
          obtain ⟨hit, q, hq, -⟩ := hc.behind
          rw [hnext, hit]
          exact ⟨q, by rw [follow_node, hq]; rfl⟩
  | cons a as =>
      obtain ⟨hnext, q, hq, -⟩ := hc.before
      rw [hnext]
      exact ⟨q, by rw [follow_node, hq]; rfl⟩

theorem Segment.mem_nodes {prev p it : Link} {xs : List (Nat × α)}
    (hs : h.Segment prev p xs it) : ∀ id ∈ xs.map Prod.fst, id ∈ h.nodes := by
  induction xs generalizing prev p with
  | nil => exact fun id hid => absurd hid List.not_mem_nil
  | cons x xs ih =>
      obtain ⟨-, q, hx, hrest⟩ := hs
      intro id hid
      rcases List.mem_cons.mp hid with rfl | hid
      · exact Finmap.mem_of_lookup_eq_some hx
      · exact ih hrest id hid

/-- There are no more nodes before the position than there are in the heap. -/
theorem Cursor.length_le_size (hc : h.Cursor as it back bs) : as.length ≤ h.size := by
  unfold size
  rw [← List.length_map (f := Prod.fst), ← List.toFinset_card_of_nodup hc.nodup_before]
  refine Finset.card_le_card fun i hi => ?_
  exact Finmap.mem_keys.mpr (hc.before.mem_nodes i (List.mem_toFinset.mp hi))

/-! ### Inserting -/

theorem next_setPrev {p q : Link} (hs : h.setPrev p q = some h') : h'.next = h.next := by
  cases p with
  | head => cases hs; rfl
  | poison => cases hs
  | node i =>
      obtain ⟨n, -, rfl⟩ := Option.map_eq_some_iff.mp hs
      rfl

/-- `it->prev = q` -/
theorem Cursor.open_ (hc : h.Cursor as it back bs) (q : Link) :
    ∃ h', h.setPrev it q = some h' ∧ h'.Cursor as it q bs ∧
      ∀ id ∉ bs.map Prod.fst, h'.nodes.lookup id = h.nodes.lookup id := by
  obtain ⟨h', hset, hchain, hsame⟩ := hc.behind.setPrev hc.nodup_behind q
  refine ⟨h', hset, ⟨?_, hchain, hc.nodup⟩, hsame⟩
  rw [next_setPrev hset]
  exact hc.before.congr fun i hi => hsame i (hc.disjoint hi)

/-- The last node of a segment is linked to `q`. -/
theorem Segment.setNext {prev p : Link} (hs : h.Segment prev p as it)
    (hnodup : (as.map Prod.fst).Nodup) (has : as ≠ []) (q : Link) :
    ∃ h', h.setNext (lastLink prev as) q = some h' ∧ h'.Segment prev p as q ∧
      h'.next = h.next ∧ h'.prev = h.prev ∧
      ∀ id ∉ as.map Prod.fst, h'.nodes.lookup id = h.nodes.lookup id := by
  induction as generalizing prev p with
  | nil => exact absurd rfl has
  | cons a as ih =>
      obtain ⟨hp, n, hn, hrest⟩ := hs
      obtain ⟨hnot, hnodup⟩ := List.nodup_cons.mp hnodup
      cases as with
      | nil =>
          refine ⟨{ h with nodes := h.nodes.insert a.1 ⟨prev, q, a.2⟩ }, ?_, ?_, rfl, rfl, ?_⟩
          · change (h.nodes.lookup a.1).map _ = _
            rw [hn]
            rfl
          · exact ⟨hp, q, Finmap.lookup_insert _, rfl⟩
          · intro i hi
            exact Finmap.lookup_insert_of_ne _ fun heq => hi (heq ▸ List.mem_cons_self)
      | cons b as =>
          obtain ⟨h', hset, hseg, hnext, hprev, hsame⟩ :=
            ih hrest hnodup (List.cons_ne_nil b as)
          refine ⟨h', hset, ⟨hp, n, (hsame a.1 hnot).trans hn, hseg⟩, hnext, hprev, fun i hi => ?_⟩
          exact hsame i fun hmem => hi (List.mem_cons_of_mem a.1 hmem)

/-- The last store: the node before the position is linked to the new one, which is linked both
    ways and is behind the node `it` already. -/
theorem Cursor.close {a : α} (hc : h.Cursor as it (.node id) bs)
    (hid : id ∉ (as ++ bs).map Prod.fst)
    (hnew : h.nodes.lookup id = some ⟨lastLink .head as, it, a⟩) :
    ∃ h', h.setNext (lastLink .head as) (.node id) = some h' ∧
      h'.Linked (as ++ (id, a) :: bs) := by
  rw [List.map_append, List.mem_append, not_or] at hid
  have hnodup : ((as ++ (id, a) :: bs).map Prod.fst).Nodup := by
    rw [List.map_append, List.map_cons, List.nodup_middle, List.nodup_cons, ← List.map_append,
      List.map_append, List.mem_append, not_or, ← List.map_append]
    exact ⟨hid, hc.nodup⟩
  by_cases has : as = []
  · subst has
    exact ⟨_, rfl, ⟨rfl, it, hnew, hc.behind.congr rfl fun _ _ => rfl⟩, hnodup⟩
  · obtain ⟨h', hset, hseg, hnext, hprev, hsame⟩ :=
      hc.before.setNext hc.nodup_before has (.node id)
    refine ⟨h', hset, ?_, hnodup⟩
    rw [hnext]
    refine chain_append.mpr ⟨.node id, hseg, rfl, it, (hsame id hid.1).trans hnew, ?_⟩
    exact hc.behind.congr hprev fun i hi => hsame i fun ha => hc.disjoint ha hi

/-! ### Deleting before the position -/

/-- The node after the first one, or the node at the position, is given the head as its
    predecessor. -/
theorem Cursor.setPrev_second {a : α} {q : Link} (hc : h.Cursor ((id, a) :: as) it back bs)
    (hq : h.Segment (.node id) q as it) :
    ∃ h₀, h.setPrev q .head = some h₀ ∧ h₀.Segment .head q as it ∧
      h₀.Chain (if as = [] then .head else back) it bs ∧
      ∀ i ∉ (as ++ bs).map Prod.fst, h₀.nodes.lookup i = h.nodes.lookup i := by
  have hnodup := hc.nodup_before
  cases as with
  | nil =>
      obtain rfl : q = it := hq
      obtain ⟨h₀, hset, hchain, hsame⟩ := hc.behind.setPrev hc.nodup_behind .head
      exact ⟨h₀, hset, rfl, hchain, hsame⟩
  | cons b as =>
      obtain ⟨rfl, n, hn, hrest⟩ := hq
      obtain ⟨-, hnodup⟩ := List.nodup_cons.mp hnodup
      obtain ⟨hnot, -⟩ := List.nodup_cons.mp hnodup
      have hbs : b.1 ∉ bs.map Prod.fst :=
        hc.disjoint (List.mem_cons_of_mem _ List.mem_cons_self)
      refine ⟨{ h with nodes := h.nodes.insert b.1 ⟨.head, n, b.2⟩ }, ?_, ?_, ?_, ?_⟩
      · change (h.nodes.lookup b.1).map _ = _
        rw [hn]
        rfl
      · refine ⟨rfl, n, Finmap.lookup_insert _, hrest.congr fun i hi => ?_⟩
        exact Finmap.lookup_insert_of_ne _ fun heq => hnot (heq ▸ hi)
      · rw [if_neg (List.cons_ne_nil b as)]
        exact hc.behind.congr rfl fun i hi =>
          Finmap.lookup_insert_of_ne _ fun heq => hbs (heq ▸ hi)
      · intro i hi
        exact Finmap.lookup_insert_of_ne _ fun heq => hi (heq ▸ List.mem_cons_self)

/-- Deleting the first node of the list and freeing it, at a position behind it. -/
theorem Cursor.unlink {a : α} (hc : h.Cursor ((id, a) :: as) it back bs) :
    ∃ h₁ h₂, h.list_del id = some h₁ ∧ h₁.kfree id = some h₂ ∧
      h.follow (.node id) = some h₂.next ∧ id ∉ h₂.nodes ∧
      h₂.Cursor as it (if as = [] then .head else back) bs ∧
      ∀ i, i ≠ id → i ∉ (as ++ bs).map Prod.fst → h₂.nodes.lookup i = h.nodes.lookup i := by
  obtain ⟨-, q, hid, hq⟩ := hc.before
  obtain ⟨h₀, hset, hseg, hchain, hsame⟩ := hc.setPrev_second hq
  have hnodup := hc.nodup
  rw [List.cons_append, List.map_cons] at hnodup
  obtain ⟨hnot, hrest⟩ := List.nodup_cons.mp hnodup
  have hid₀ : h₀.nodes.lookup id = some ⟨.head, q, a⟩ := (hsame id hnot).trans hid
  have hdel : h.list_del id = some
      { h₀ with
        next := q
        nodes := (h₀.nodes.insert id ⟨.head, .poison, a⟩).insert id ⟨.poison, .poison, a⟩ } := by
    unfold list_del
    simp [hid, hset, hid₀]
  -- behind the deleted node all is as it was after the first store
  have hsame₂ : ∀ i, i ≠ id → (((h₀.nodes.insert id ⟨.head, .poison, a⟩).insert id
      ⟨.poison, .poison, a⟩).erase id).lookup i = h₀.nodes.lookup i := by
    intro i hi
    rw [Finmap.lookup_erase_ne hi, Finmap.lookup_insert_of_ne _ hi,
      Finmap.lookup_insert_of_ne _ hi]
  rw [List.map_append, List.mem_append, not_or] at hnot
  refine ⟨_, _, hdel, kfree_of_mem (Finmap.mem_insert.mpr (.inl rfl)), ?_, ?_, ⟨?_, ?_, hrest⟩, ?_⟩
  · rw [follow_node, hid]
    rfl
  · exact Finmap.notMem_erase_self
  · exact hseg.congr fun i hi => hsame₂ i fun heq => hnot.1 (heq ▸ hi)
  · exact hchain.congr rfl fun i hi => hsame₂ i fun heq => hnot.2 (heq ▸ hi)
  · exact fun i hne hi => (hsame₂ i hne).trans (hsame i hi)

end

end KernelBasecamp.Lib.ListHeap
