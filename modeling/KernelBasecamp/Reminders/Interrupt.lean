/-
  The reminder list in memory refines the reminder list of the module, as long as the timer
  frees no entry to which the writer holds a link.

  A walk of the timer that stops before the writer's position leaves the list in one piece and
  the position where it is (`triggerLoop_within`), in the middle of an insertion too; a walk that
  goes further frees the entry at the position (`triggerLoop_beyond`). The insertion takes effect
  with its last store.

  * `interrupted_run`: under that condition there is no fault, and the list is the one that
    `add_message` and `trigger_messages` make of the module's list when each runs by itself. And
    when the timer frees the entry at which the writer stands in its loop, the writer's next
    access is a fault.
-/
import KernelBasecamp.Reminders.Heap

namespace KernelBasecamp.Reminders

open Lib Lib.ListHeap

section

variable {ktime_get : Nat → Int} {h : ListHeap Reminder} {as bs : List (Nat × Reminder)}
  {it back : Link}

/-- What is behind the walk when it stops before the position. -/
structure Swept (h h' : ListHeap Reminder) (k : Nat) (as : List (Nat × Reminder)) (it back : Link)
    (bs : List (Nat × Reminder)) : Prop where
  cursor : h'.Cursor (as.drop k) it (if as.drop k = [] ∧ k ≠ 0 then .head else back) bs
  freed : ∀ id ∈ (as.take k).map Prod.fst, id ∉ h'.nodes
  same : ∀ id ∉ (as ++ bs).map Prod.fst, h'.nodes.lookup id = h.nodes.lookup id

theorem Swept.refl (hc : h.Cursor as it back bs) : Swept h h 0 as it back bs where
  cursor := by
    rw [List.drop_zero, if_neg fun hno => hno.2 rfl]
    exact hc
  freed _ hid := absurd hid List.not_mem_nil
  same _ _ := rfl

/-- Deleting the first entry and then `k` more. -/
theorem back_after (k : Nat) (a : Nat × Reminder) (as : List (Nat × Reminder)) (back : Link) :
    (if as.drop k = [] ∧ k ≠ 0 then Link.head else if as = [] then .head else back) =
      if (a :: as).drop (k + 1) = [] ∧ k + 1 ≠ 0 then .head else back := by
  rw [List.drop_succ_cons]
  by_cases has : as = []
  · subst has
    simp
  · by_cases hdrop : as.drop k = []
    · have hk : k ≠ 0 := by
        rintro rfl
        exact has hdrop
      rw [if_pos ⟨hdrop, hk⟩, if_pos ⟨hdrop, Nat.succ_ne_zero k⟩]
    · rw [if_neg fun hno => hdrop hno.1, if_neg has, if_neg fun hno => hdrop hno.1]

/-- The first entry is deleted and freed, and then `k` more. -/
theorem Swept.cons {h₂ h' : ListHeap Reminder} {k : Nat} {a : Nat × Reminder}
    (hs : Swept h₂ h' k as it (if as = [] then .head else back) bs)
    (hnot : a.1 ∉ (as ++ bs).map Prod.fst) (hgone : a.1 ∉ h₂.nodes)
    (hsame : ∀ i, i ≠ a.1 → i ∉ (as ++ bs).map Prod.fst →
      h₂.nodes.lookup i = h.nodes.lookup i) : Swept h h' (k + 1) (a :: as) it back bs := by
  refine ⟨?_, fun id hid => ?_, fun id hid => ?_⟩
  · rw [← back_after]
    exact hs.cursor
  · rcases List.mem_cons.mp hid with rfl | hid
    · rw [← Finmap.lookup_eq_none] at hgone ⊢
      exact (hs.same a.1 hnot).trans hgone
    · exact hs.freed id hid
  · obtain ⟨hne, hid⟩ : id ≠ a.1 ∧ id ∉ (as ++ bs).map Prod.fst :=
      not_or.mp fun hmem => hid (List.mem_cons.mpr hmem)
    exact (hs.same id hid).trans (hsame id hne hid)

/-- A walk that delivers no more than what comes before the position. -/
theorem triggerLoop_within {fuel reads : Nat} {i_next : Link} (hc : h.Cursor as it back bs)
    (hfuel : as.length < fuel) (hnext : h.follow h.next = some i_next)
    (hdue : due ktime_get reads (contents (as ++ bs)) ≤ as.length) :
    let t := trigger_messages ktime_get reads (contents (as ++ bs))
    let k := due ktime_get reads (contents (as ++ bs))
    ∃ h', triggerLoop ktime_get fuel h reads h.next i_next =
        some ⟨h', t.reads, t.delivered, (as.take k).map Prod.fst⟩ ∧
      Swept h h' k as it back bs ∧ t.reminders = contents (as.drop k ++ bs) := by
  dsimp only
  induction as generalizing h back fuel reads i_next with
  | nil =>
      obtain ⟨fuel, rfl⟩ : ∃ n, fuel = n + 1 := ⟨fuel - 1, by simp at hfuel; omega⟩
      have hfirst : h.next = it := hc.before
      have hzero := Nat.le_zero.mp hdue
      rw [hzero]
      cases bs with
      | nil =>
          have hit : h.next = .head := hfirst.trans hc.behind.1
          refine ⟨h, ?_, Swept.refl hc, rfl⟩
          rw [hit]
          rfl
      | cons b bs =>
          obtain ⟨hit, q, hq, -⟩ := hc.behind
          have hlater : ¬ b.2.trigger_time ≤ ktime_get reads := by
            intro hd
            have hpos := due_cons_of_le (l := contents bs) hd
            change due ktime_get reads (b.2 :: contents bs) = 0 at hzero
            omega
          refine ⟨h, ?_, Swept.refl hc, ?_⟩
          · rw [hfirst, hit, triggerLoop_later hq hlater]
            change _ = some (Sweep.mk h
              (trigger_messages ktime_get reads (b.2 :: contents bs)).reads
              (trigger_messages ktime_get reads (b.2 :: contents bs)).delivered [])
            rw [trigger_messages, if_neg hlater]
          · change (trigger_messages ktime_get reads (b.2 :: contents bs)).reminders = _
            rw [trigger_messages, if_neg hlater]
            rfl
  | cons a as ih =>
      obtain ⟨fuel, rfl⟩ : ∃ n, fuel = n + 1 := ⟨fuel - 1, by simp at hfuel; omega⟩
      obtain ⟨hfirst, q, hq, -⟩ := hc.before
      change due ktime_get reads (a.2 :: contents (as ++ bs)) ≤ as.length + 1 at hdue
      change ∃ h', triggerLoop ktime_get (fuel + 1) h reads h.next i_next =
        some ⟨h', (trigger_messages ktime_get reads (a.2 :: contents (as ++ bs))).reads,
          (trigger_messages ktime_get reads (a.2 :: contents (as ++ bs))).delivered,
          ((a :: as).take (due ktime_get reads (a.2 :: contents (as ++ bs)))).map Prod.fst⟩ ∧
        Swept h h' (due ktime_get reads (a.2 :: contents (as ++ bs))) (a :: as) it back bs ∧
        (trigger_messages ktime_get reads (a.2 :: contents (as ++ bs))).reminders =
          contents ((a :: as).drop (due ktime_get reads (a.2 :: contents (as ++ bs))) ++ bs)
      by_cases hd : a.2.trigger_time ≤ ktime_get reads
      · obtain ⟨h₁, h₂, hdel, hfree, hfollow, hgone, hc₂, hsame⟩ := hc.unlink
        rw [hfirst, hfollow, Option.some.injEq] at hnext
        obtain ⟨next, hnext₂⟩ := hc₂.follow_first
        rw [due_cons_of_le hd] at hdue ⊢
        obtain ⟨h', hloop, hswept, hrest⟩ :=
          ih hc₂ (Nat.lt_of_succ_lt_succ hfuel) hnext₂ (Nat.le_of_succ_le_succ hdue)
        refine ⟨h', ?_, hswept.cons (List.nodup_cons.mp hc.nodup).1 hgone hsame, ?_⟩
        · rw [hfirst, triggerLoop_due hq hd hdel hfree, ← hnext, hnext₂, Option.bind_some, hloop,
            Option.map_some, trigger_messages, if_pos hd]
          rfl
        · rw [trigger_messages, if_pos hd]
          exact hrest
      · rw [due_cons_of_lt hd]
        refine ⟨h, ?_, Swept.refl hc, ?_⟩
        · rw [hfirst, triggerLoop_later hq hd, trigger_messages, if_neg hd]
          rfl
        · rw [trigger_messages, if_neg hd]
          rfl

/-- A walk that goes beyond the position frees the entry there. -/
theorem triggerLoop_beyond {fuel reads id : Nat} {i_next : Link} {t : Sweep}
    (hc : h.Cursor as (.node id) back bs) (hnext : h.follow h.next = some i_next)
    (hdue : as.length < due ktime_get reads (contents (as ++ bs)))
    (hloop : triggerLoop ktime_get fuel h reads h.next i_next = some t) : id ∈ t.freed := by
  induction as generalizing h back fuel reads i_next t with
  | nil =>
      have hfirst : h.next = .node id := hc.before
      obtain ⟨q, a, bs', rfl, hq, -⟩ := hc.at_node
      cases fuel with
      | zero => cases hloop
      | succ fuel =>
          have hd : a.trigger_time ≤ ktime_get reads := by
            by_contra hlater
            have hzero := due_cons_of_lt (l := contents bs') hlater
            change 0 < due ktime_get reads (a :: contents bs') at hdue
            omega
          rw [hfirst, triggerLoop] at hloop
          simp only [hq, Option.bind_eq_bind, Option.bind_some, if_pos hd,
            Option.bind_eq_some_iff] at hloop
          obtain ⟨h₁, -, h₂, -, next, -, rest, -, ht⟩ := hloop
          cases ht
          exact List.mem_cons_self
  | cons a as ih =>
      obtain ⟨hfirst, q, hq, -⟩ := hc.before
      change as.length + 1 < due ktime_get reads (a.2 :: contents (as ++ bs)) at hdue
      cases fuel with
      | zero => cases hloop
      | succ fuel =>
          by_cases hd : a.2.trigger_time ≤ ktime_get reads
          · obtain ⟨h₁, h₂, hdel, hfree, hfollow, -, hc₂, -⟩ := hc.unlink
            rw [hfirst, hfollow, Option.some.injEq] at hnext
            obtain ⟨next, hnext₂⟩ := hc₂.follow_first
            rw [hfirst, triggerLoop_due hq hd hdel hfree, ← hnext, hnext₂,
              Option.bind_some] at hloop
            obtain ⟨rest, hrest, rfl⟩ := Option.map_eq_some_iff.mp hloop
            rw [due_cons_of_le hd] at hdue
            exact List.mem_cons_of_mem _ (ih hc₂ hnext₂ (Nat.lt_of_succ_lt_succ hdue) hrest)
          · rw [due_cons_of_lt hd] at hdue
            exact absurd hdue (Nat.not_lt_zero _)

/-- A walk that frees nothing at the position stops before it. -/
theorem due_le_of_not_freed {reads : Nat} {t : Sweep} (hc : h.Cursor as it back bs)
    (ht : triggerHeap ktime_get h reads = some t) (hkept : ∀ id ∈ t.freed, .node id ≠ it) :
    due ktime_get reads (contents (as ++ bs)) ≤ as.length := by
  obtain ⟨i_next, hnext, hloop⟩ := Option.bind_eq_some_iff.mp ht
  by_contra hfar
  cases bs with
  | nil =>
      have hle : due ktime_get reads (contents as) ≤ (contents as).length := due_le_length _ _
      unfold contents at hle hfar
      rw [List.append_nil] at hfar
      rw [List.length_map] at hle
      exact hfar hle
  | cons b bs =>
      obtain ⟨hit, -⟩ := hc.behind
      subst hit
      exact hkept b.1 (triggerLoop_beyond hc hnext (Nat.not_le.mp hfar) hloop) rfl

/-- The walk of the timer that stops before the position. -/
theorem triggerHeap_within {reads : Nat} (hc : h.Cursor as it back bs)
    (hdue : due ktime_get reads (contents (as ++ bs)) ≤ as.length) :
    let t := trigger_messages ktime_get reads (contents (as ++ bs))
    let k := due ktime_get reads (contents (as ++ bs))
    ∃ h', triggerHeap ktime_get h reads =
        some ⟨h', t.reads, t.delivered, (as.take k).map Prod.fst⟩ ∧
      Swept h h' k as it back bs ∧ t.reminders = contents (as.drop k ++ bs) := by
  obtain ⟨i_next, hnext⟩ := hc.follow_first
  obtain ⟨h', hloop, hrest⟩ :=
    triggerLoop_within hc (Nat.lt_succ_of_le hc.length_le_size) hnext hdue
  refine ⟨h', ?_, hrest⟩
  unfold triggerHeap
  rw [hnext]
  exact hloop

end

/-! ## The writer -/

/-- The writer's reminder is in the node `r`; the list is `l`, and the reminders before the
    position are not later than the writer's. -/
structure Inserting (k : Kernel) (l : List Reminder) (r : Nat) (new : Node Reminder)
    (it back : Link) (as bs : List (Nat × Reminder)) : Prop where
  cursor : k.heap.Cursor as it back bs
  node : k.heap.nodes.lookup r = some new
  fresh : r ∉ (as ++ bs).map Prod.fst
  passed : ∀ e ∈ as, e.2.trigger_time ≤ new.data.trigger_time
  list : contents (as ++ bs) = l
  bound : ∀ id ∈ r :: (as ++ bs).map Prod.fst, id < k.allocated

/-- The entry at the position is later than the writer's. -/
def Stops (new : Node Reminder) (bs : List (Nat × Reminder)) : Prop :=
  ∀ e ∈ bs.head?, new.data.trigger_time < e.2.trigger_time

/-- What the memory looks like while the module's list is `l`. -/
def Holds (k : Kernel) (l : List Reminder) : Writer → Prop
  | .idle => ∃ rs, k.heap.Linked rs ∧ contents rs = l ∧
      ∀ id ∈ rs.map Prod.fst, id < k.allocated
  | .walk r it => ∃ new as bs, Inserting k l r new it (lastLink .head as) as bs
  | .found r it => ∃ new as bs, Inserting k l r new it (lastLink .head as) as bs ∧ Stops new bs
  | .store i r it prev => ∃ new as bs,
      Inserting k l r new it (if i = .next_prev then prev else .node r) as bs ∧ Stops new bs ∧
        prev = lastLink .head as ∧ (i = .new_prev ∨ i = .prev_next → new.next = it) ∧
          (i = .prev_next → new.prev = prev)

section

variable {k k' : Kernel} {l : List Reminder} {r : Nat} {new : Node Reminder} {it back : Link}
  {as bs : List (Nat × Reminder)} {ktime_get : Nat → Int}

/-- Inserting in front of the first later reminder. -/
theorem add_message_at (hpassed : ∀ e ∈ as, e.2.trigger_time ≤ new.data.trigger_time)
    (hstops : Stops new bs) :
    add_message (contents (as ++ bs)) new.data = contents (as ++ (r, new.data) :: bs) := by
  unfold contents
  rw [add_message_eq, List.map_append, KeyedList.insertKey_append _ (by
    intro q hq
    obtain ⟨e, he, rfl⟩ := List.mem_map.mp hq
    exact hpassed e he), List.map_append]
  congr 1
  cases bs with
  | nil => rfl
  | cons b bs =>
      rw [List.map_cons, KeyedList.insertKey, if_pos (hstops b rfl)]
      rfl

theorem holds_add {q : Reminder} (h : Holds k l .idle) :
    Holds { k with
      heap := { k.heap with nodes := k.heap.nodes.insert k.allocated ⟨.poison, .poison, q⟩ }
      writer := .walk k.allocated k.heap.next
      allocated := k.allocated + 1 } l (.walk k.allocated k.heap.next) := by
  obtain ⟨rs, hlinked, hl, hbound⟩ := h
  have hlinked : k.heap.Linked ([] ++ rs) := hlinked
  obtain ⟨it, hc⟩ := linked_iff.mp hlinked
  obtain rfl : k.heap.next = it := hc.before
  have hfresh : k.allocated ∉ rs.map Prod.fst := fun hmem => Nat.lt_irrefl _ (hbound _ hmem)
  refine ⟨⟨.poison, .poison, q⟩, [], rs, ?_, Finmap.lookup_insert _, hfresh,
    fun e he => absurd he List.not_mem_nil, hl, fun id hid => ?_⟩
  · refine hc.congr rfl rfl fun id hid => Finmap.lookup_insert_of_ne _ ?_
    rintro rfl
    exact hfresh hid
  · rcases List.mem_cons.mp hid with rfl | hid
    · exact Nat.lt_succ_self _
    · exact Nat.lt_succ_of_lt (hbound id hid)

/-- What an access of the writer does to the module's list: nothing, or it adds the reminder. -/
def Advances (k k' : Kernel) (l : List Reminder) : Prop :=
  k'.reads = k.reads ∧ k'.delivered = k.delivered ∧
    (k'.added = k.added ∧ Holds k' l k'.writer ∨
      ∃ q, k'.added = k.added ++ [q] ∧ Holds k' (add_message l q) k'.writer)

theorem go_walk (hw : k.writer = .walk r it)
    (hi : Inserting k l r new it (lastLink .head as) as bs) :
    ∃ k', writerStep k = some k' ∧ Advances k k' l := by
  unfold writerStep
  rw [hw]
  cases it with
  | poison =>
      cases bs with
      | nil => exact absurd hi.cursor.behind.1 (by simp)
      | cons b bs => exact absurd hi.cursor.behind.1 (by simp)
  | head =>
      refine ⟨_, rfl, rfl, rfl, .inl ⟨rfl, new, as, bs, ⟨hi.cursor, hi.node, hi.fresh, hi.passed,
        hi.list, hi.bound⟩, ?_⟩⟩
      rw [hi.cursor.at_head]
      exact fun e he => nomatch he
  | node id =>
      obtain ⟨q, a, bs, rfl, -, -⟩ := hi.cursor.at_node
      obtain ⟨q, hid, hc⟩ := hi.cursor.advance
      simp only [hid, hi.node, Option.bind_eq_bind, Option.bind_some]
      by_cases hlater : a.trigger_time > new.data.trigger_time
      · rw [if_pos hlater]
        refine ⟨_, rfl, rfl, rfl, .inl ⟨rfl, new, as, (id, a) :: bs, ⟨hi.cursor, hi.node,
          hi.fresh, hi.passed, hi.list, hi.bound⟩, ?_⟩⟩
        intro e he
        cases he
        exact hlater
      · rw [if_neg hlater]
        have happend : as ++ (id, a) :: bs = (as ++ [(id, a)]) ++ bs := by
          rw [List.append_assoc, List.singleton_append]
        refine ⟨_, rfl, rfl, rfl, .inl ⟨rfl, new, as ++ [(id, a)], bs, ⟨hc, hi.node, ?_, ?_, ?_,
          ?_⟩⟩⟩
        · rw [← happend]
          exact hi.fresh
        · intro e he
          rcases List.mem_append.mp he with he | he
          · exact hi.passed e he
          · rw [List.mem_singleton.mp he]
            exact not_lt.mp hlater
        · rw [← happend]
          exact hi.list
        · rw [← happend]
          exact hi.bound

theorem go_found (hw : k.writer = .found r it)
    (hi : Inserting k l r new it (lastLink .head as) as bs) (hs : Stops new bs) :
    ∃ k', writerStep k = some k' ∧ Advances k k' l := by
  unfold writerStep
  rw [hw]
  simp only [hi.cursor.followPrev, Option.bind_eq_bind, Option.bind_some]
  refine ⟨_, rfl, rfl, rfl, .inl ⟨rfl, new, as, bs, ⟨hi.cursor, hi.node, hi.fresh, hi.passed,
    hi.list, hi.bound⟩, hs, rfl, ?_, ?_⟩⟩
  · intro hle
    exact absurd hle (by decide)
  · intro hle
    exact absurd hle (by decide)

/-- The new node is written, and nothing else. -/
theorem Inserting.write {n : Node Reminder} {w : Writer} (hi : Inserting k l r new it back as bs)
    (hdata : n.data = new.data) :
    Inserting { k with
      heap := { k.heap with nodes := k.heap.nodes.insert r n }
      writer := w } l r n it back as bs := by
  refine ⟨?_, Finmap.lookup_insert _, hi.fresh, ?_, hi.list, hi.bound⟩
  · refine hi.cursor.congr rfl rfl fun id hid => Finmap.lookup_insert_of_ne _ ?_
    rintro rfl
    exact hi.fresh hid
  · intro e he
    rw [hdata]
    exact hi.passed e he

theorem go_store {i : LinkStore} {prev : Link} (hw : k.writer = .store i r it prev)
    (hi : Inserting k l r new it (if i = .next_prev then prev else .node r) as bs)
    (hs : Stops new bs) (hprev : prev = lastLink .head as)
    (hnext : i = .new_prev ∨ i = .prev_next → new.next = it)
    (hback : i = .prev_next → new.prev = prev) :
    ∃ k', writerStep k = some k' ∧ Advances k k' l := by
  unfold writerStep
  rw [hw]
  cases i with
  | next_prev =>
      obtain ⟨h', hset, hc, hsame⟩ := hi.cursor.open_ (.node r)
      simp only [hset, Option.bind_eq_bind, Option.bind_some]
      have hr : r ∉ bs.map Prod.fst := by
        have hfresh := hi.fresh
        rw [List.map_append, List.mem_append, not_or] at hfresh
        exact hfresh.2
      refine ⟨_, rfl, rfl, rfl, .inl ⟨rfl, new, as, bs, ⟨hc, (hsame r hr).trans hi.node, hi.fresh,
        hi.passed, hi.list, hi.bound⟩, hs, hprev, ?_, ?_⟩⟩
      · intro hle
        exact absurd hle (by decide)
      · intro hle
        exact absurd hle (by decide)
  | new_next =>
      simp only [setNext_node, hi.node, Option.map_some, Option.bind_eq_bind, Option.bind_some]
      refine ⟨_, rfl, rfl, rfl, .inl ⟨rfl, { new with next := it }, as, bs, hi.write rfl, hs, hprev,
        fun _ => rfl, ?_⟩⟩
      intro hle
      exact absurd hle (by decide)
  | new_prev =>
      simp only [setPrev_node, hi.node, Option.map_some, Option.bind_eq_bind, Option.bind_some]
      exact ⟨_, rfl, rfl, rfl, .inl ⟨rfl, { new with prev := prev }, as, bs, hi.write rfl, hs,
        hprev, fun _ => hnext (by decide), fun _ => rfl⟩⟩
  | prev_next =>
      have hnew : k.heap.nodes.lookup r = some ⟨lastLink .head as, it, new.data⟩ := by
        rw [hi.node, ← hprev, ← hback (by decide), ← hnext (by decide)]
      obtain ⟨h', hset, hlinked⟩ := Cursor.close hi.cursor hi.fresh hnew
      rw [← hprev] at hset
      simp only [hi.node, hset, Option.bind_eq_bind, Option.bind_some]
      refine ⟨_, rfl, rfl, rfl, .inr ⟨new.data, rfl, as ++ (r, new.data) :: bs, hlinked, ?_, ?_⟩⟩
      · rw [← hi.list, add_message_at hi.passed hs]
      · intro id hid
        refine hi.bound id ?_
        rw [List.map_append, List.map_cons, List.mem_append, List.mem_cons] at hid
        rw [List.map_append, List.mem_cons, List.mem_append]
        tauto

/-- The writer's accesses are possible and keep the memory in order. -/
theorem holds_go (h : Holds k l k.writer) (hgo : k.writer ≠ .idle) :
    ∃ k', writerStep k = some k' ∧ Advances k k' l := by
  cases hw : k.writer with
  | idle => exact absurd hw hgo
  | walk r it =>
      rw [hw] at h
      obtain ⟨new, as, bs, hi⟩ := h
      exact go_walk hw hi
  | found r it =>
      rw [hw] at h
      obtain ⟨new, as, bs, hi, hs⟩ := h
      exact go_found hw hi hs
  | store i r it prev =>
      rw [hw] at h
      obtain ⟨new, as, bs, hi, hs, hprev, hnext, hback⟩ := h
      exact go_store hw hi hs hprev hnext hback

/-! ## The timer -/

/-- The module after a tick. -/
def Kernel.after (k : Kernel) (t : Sweep) : Kernel :=
  { k with heap := t.heap, reads := t.reads, delivered := k.delivered ++ t.delivered }

/-- The walk of the timer is the one of the module's list. -/
def Agrees (ktime_get : Nat → Int) (k : Kernel) (l : List Reminder) (t : Sweep) : Prop :=
  t.reads = (trigger_messages ktime_get k.reads l).reads ∧
    t.delivered = (trigger_messages ktime_get k.reads l).delivered

theorem back_after_walk (d : Nat) (as : List (Nat × Reminder)) :
    (if as.drop d = [] ∧ d ≠ 0 then Link.head else lastLink .head as) =
      lastLink .head (as.drop d) := by
  by_cases hdrop : as.drop d = []
  · rw [hdrop]
    by_cases hd : d = 0
    · subst hd
      rw [List.drop_zero] at hdrop
      subst hdrop
      simp [lastLink]
    · rw [if_pos ⟨rfl, hd⟩]
      rfl
  · rw [if_neg fun hno => hdrop hno.1, lastLink_drop .head hdrop]

theorem inserting_tick {t : Sweep} (hi : Inserting k l r new it back as bs)
    (ht : triggerHeap ktime_get k.heap k.reads = some t) (hkept : ∀ id ∈ t.freed, .node id ≠ it) :
    Agrees ktime_get k l t ∧ due ktime_get k.reads l ≤ as.length ∧
      t.freed = (as.take (due ktime_get k.reads l)).map Prod.fst ∧
      Inserting (k.after t) (trigger_messages ktime_get k.reads l).reminders r new it
        (if as.drop (due ktime_get k.reads l) = [] ∧ due ktime_get k.reads l ≠ 0 then .head
          else back) (as.drop (due ktime_get k.reads l)) bs := by
  have hdue := due_le_of_not_freed hi.cursor ht hkept
  obtain ⟨h', hheap, hswept, hrest⟩ := triggerHeap_within hi.cursor hdue
  rw [hi.list] at hdue hheap hswept hrest
  rw [ht, Option.some.injEq] at hheap
  subst hheap
  have hsub : ∀ id ∈ (as.drop (due ktime_get k.reads l) ++ bs).map Prod.fst,
      id ∈ (as ++ bs).map Prod.fst := by
    intro id hid
    rw [List.map_append, List.mem_append, List.map_drop] at hid
    rw [List.map_append, List.mem_append]
    exact hid.imp_left List.mem_of_mem_drop
  refine ⟨⟨rfl, rfl⟩, hdue, rfl, hswept.cursor, (hswept.same r hi.fresh).trans hi.node,
    fun hr => hi.fresh (hsub r hr), fun e he => hi.passed e (List.mem_of_mem_drop he), hrest.symm,
    fun id hid => hi.bound id ?_⟩
  rcases List.mem_cons.mp hid with rfl | hid
  · exact List.mem_cons_self
  · exact List.mem_cons_of_mem _ (hsub id hid)

/-- In the middle of `list_add_tail` the entry before the position is not freed either. -/
theorem tick_keeps_prev {t : Sweep} {d : Nat} {prev : Link} (hprev : prev = lastLink .head as)
    (hd : d ≤ as.length) (hfreed : t.freed = (as.take d).map Prod.fst)
    (hkept : ∀ id ∈ t.freed, .node id ≠ prev) : ¬ (as.drop d = [] ∧ d ≠ 0) := by
  rintro ⟨hdrop, hpos⟩
  by_cases has : as = []
  · subst has
    exact hpos (Nat.le_zero.mp hd)
  · have hall : as.take d = as := List.take_of_length_le (List.drop_eq_nil_iff.mp hdrop)
    obtain ⟨id, hid, hlast⟩ := lastLink_of_ne_nil .head has
    rw [hall] at hfreed
    exact hkept id (hfreed ▸ hid) (hprev.trans hlast).symm

variable (ktime_get) in
/-- A linked list is linked after the walk, and what has been freed is gone. -/
theorem linked_walk {h : ListHeap Reminder} {rs : List (Nat × Reminder)} (reads : Nat)
    (hlinked : h.Linked rs) (hl : contents rs = l) :
    ∃ h', triggerHeap ktime_get h reads =
        some ⟨h', (trigger_messages ktime_get reads l).reads,
          (trigger_messages ktime_get reads l).delivered,
          (rs.take (due ktime_get reads l)).map Prod.fst⟩ ∧
      h'.Linked (rs.drop (due ktime_get reads l)) ∧
      contents (rs.drop (due ktime_get reads l)) = (trigger_messages ktime_get reads l).reminders ∧
      ∀ id ∈ (rs.take (due ktime_get reads l)).map Prod.fst, id ∉ h'.nodes := by
  have happ : h.Linked (rs ++ []) := by rwa [List.append_nil]
  obtain ⟨it, hc⟩ := linked_iff.mp happ
  have hdue : due ktime_get reads (contents (rs ++ [])) ≤ rs.length := by
    have hle : due ktime_get reads (contents rs) ≤ (contents rs).length := due_le_length _ _
    unfold contents at hle ⊢
    rwa [List.append_nil, ← List.length_map (f := Prod.snd)]
  obtain ⟨h', hheap, hswept, hrest⟩ := triggerHeap_within hc hdue
  have hcursor := hswept.cursor
  rw [List.append_nil, hl] at hheap hrest hcursor
  rw [back_after_walk] at hcursor
  have hend := linked_iff.mpr ⟨it, hcursor⟩
  rw [List.append_nil] at hend hrest
  refine ⟨h', hheap, hend, hrest.symm, ?_⟩
  have hfreed := hswept.freed
  rwa [List.append_nil, hl] at hfreed

theorem holds_tick {t : Sweep} (h : Holds k l k.writer)
    (ht : triggerHeap ktime_get k.heap k.reads = some t)
    (hkept : ∀ id ∈ t.freed, .node id ∉ k.writer.holds) :
    Agrees ktime_get k l t ∧
      Holds (k.after t) (trigger_messages ktime_get k.reads l).reminders k.writer := by
  cases hw : k.writer with
  | idle =>
      rw [hw] at h
      obtain ⟨rs, hlinked, hl, hbound⟩ := h
      obtain ⟨h', hheap, hend, hrest, -⟩ := linked_walk ktime_get k.reads hlinked hl
      rw [ht, Option.some.injEq] at hheap
      subst hheap
      refine ⟨⟨rfl, rfl⟩, _, hend, hrest, fun id hid => hbound id ?_⟩
      rw [List.map_drop] at hid
      exact List.mem_of_mem_drop hid
  | walk r it =>
      rw [hw] at h hkept
      obtain ⟨new, as, bs, hi⟩ := h
      obtain ⟨hagrees, -, -, hnext⟩ := inserting_tick hi ht fun id hid heq =>
        hkept id hid (heq ▸ List.mem_cons_self)
      rw [back_after_walk] at hnext
      exact ⟨hagrees, new, _, bs, hnext⟩
  | found r it =>
      rw [hw] at h hkept
      obtain ⟨new, as, bs, hi, hs⟩ := h
      obtain ⟨hagrees, -, -, hnext⟩ := inserting_tick hi ht fun id hid heq =>
        hkept id hid (heq ▸ List.mem_cons_self)
      rw [back_after_walk] at hnext
      exact ⟨hagrees, new, _, bs, hnext, hs⟩
  | store i r it prev =>
      rw [hw] at h hkept
      obtain ⟨new, as, bs, hi, hs, hprev, hstores⟩ := h
      obtain ⟨hagrees, hdue, hfreed, hnext⟩ := inserting_tick hi ht fun id hid heq =>
        hkept id hid (heq ▸ List.mem_cons_self)
      have hstays := tick_keeps_prev hprev hdue hfreed fun id hid heq =>
        hkept id hid (heq ▸ List.mem_cons_of_mem _ List.mem_cons_self)
      have hlast := back_after_walk (due ktime_get k.reads l) as
      rw [if_neg hstays] at hnext hlast
      exact ⟨hagrees, new, _, bs, hnext, hs, hprev.trans hlast, hstores⟩

/-! ## Runs -/

/-- The calls `ops`, each run by itself, make the module's list, and the memory holds it. -/
structure Tracks (ktime_get : Nat → Int) (k : Kernel) (ops : List Op) (t : State) : Prop where
  calls : run (step ktime_get) State.init ops = some t
  added : added ops = k.added
  reads : t.reads = k.reads
  delivered : t.delivered = k.delivered
  holds : Holds k t.reminders k.writer

theorem tracks_init : Tracks ktime_get Kernel.init [] State.init :=
  ⟨rfl, rfl, rfl, rfl, [], ⟨⟨rfl, rfl⟩, List.nodup_nil⟩, rfl, fun _ hid => nomatch hid⟩

theorem tracks_go {ops : List Op} {t : State} (h : Tracks ktime_get k ops t)
    (hs : writerStep k = some k') : ∃ ops t, Tracks ktime_get k' ops t := by
  have hgo : k.writer ≠ .idle := by
    intro hidle
    unfold writerStep at hs
    rw [hidle] at hs
    cases hs
  obtain ⟨m, hm, hreads, hdelivered, hadvance⟩ := holds_go h.holds hgo
  rw [hs, Option.some.injEq] at hm
  subst hm
  rcases hadvance with ⟨hadded, hholds⟩ | ⟨q, hadded, hholds⟩
  · exact ⟨ops, t, h.calls, h.added.trans hadded.symm, h.reads.trans hreads.symm,
      h.delivered.trans hdelivered.symm, hholds⟩
  · refine ⟨ops ++ [.add q], { t with reminders := add_message t.reminders q }, ?_, ?_,
      h.reads.trans hreads.symm, h.delivered.trans hdelivered.symm, hholds⟩
    · rw [run_concat, h.calls]
      rfl
    · rw [hadded, ← h.added]
      exact List.filterMap_append

theorem tracks_tick {ops : List Op} {t : State} {w : Sweep} (h : Tracks ktime_get k ops t)
    (hw : triggerHeap ktime_get k.heap k.reads = some w)
    (hkept : ∀ id ∈ w.freed, .node id ∉ k.writer.holds) :
    ∃ ops t, Tracks ktime_get (k.after w) ops t := by
  obtain ⟨⟨hreads, hdelivered⟩, hholds⟩ := holds_tick h.holds hw hkept
  refine ⟨ops ++ [.tick], ⟨(trigger_messages ktime_get k.reads t.reminders).reminders,
    (trigger_messages ktime_get k.reads t.reminders).reads,
    t.delivered ++ (trigger_messages ktime_get k.reads t.reminders).delivered⟩, ?_, ?_,
    hreads.symm, ?_, hholds⟩
  · rw [run_concat, h.calls, Option.bind_some, ← h.reads]
    rfl
  · refine Eq.trans ?_ h.added
    exact List.filterMap_append.trans (List.append_nil _)
  · change _ ++ _ = k.delivered ++ w.delivered
    rw [h.delivered, hdelivered]

theorem tracks_step {ops : List Op} {t : State} {m : Move} (h : Tracks ktime_get k ops t)
    (hC : Undisturbed ktime_get k m) (hs : Kernel.step ktime_get k m = some k') :
    ∃ ops t, Tracks ktime_get k' ops t := by
  cases m with
  | add q =>
      unfold Kernel.step at hs
      dsimp only at hs
      split at hs
      · next hidle =>
          cases hs
          have hholds := h.holds
          rw [hidle] at hholds
          exact ⟨ops, t, h.calls, h.added, h.reads, h.delivered, holds_add hholds⟩
      · cases hs
  | go => exact tracks_go h hs
  | tick =>
      obtain ⟨w, hw, hkept⟩ := hC
      have hafter : Kernel.step ktime_get k .tick = some (k.after w) := by
        unfold Kernel.step
        rw [Option.mem_def.mp hw]
        rfl
      rw [hs, Option.some.injEq] at hafter
      subst hafter
      exact tracks_tick h hw hkept

/-- The writer does not make the stores of `list_add_tail`. -/
def Writer.reading : Writer → Bool
  | .store .. => false
  | _ => true

/-- Then the memory holds a list in one piece. -/
theorem linked_of_reading (h : Holds k l k.writer) (hw : k.writer.reading = true) :
    ∃ rs, k.heap.Linked rs ∧ contents rs = l := by
  cases hwriter : k.writer with
  | idle =>
      rw [hwriter] at h
      obtain ⟨rs, hlinked, hl, -⟩ := h
      exact ⟨rs, hlinked, hl⟩
  | walk r it =>
      rw [hwriter] at h
      obtain ⟨new, as, bs, hi⟩ := h
      exact ⟨as ++ bs, linked_iff.mpr ⟨it, hi.cursor⟩, hi.list⟩
  | found r it =>
      rw [hwriter] at h
      obtain ⟨new, as, bs, hi, -⟩ := h
      exact ⟨as ++ bs, linked_iff.mpr ⟨it, hi.cursor⟩, hi.list⟩
  | store i r it prev =>
      rw [hwriter] at hw
      cases hw

/-- A link that leads to nothing cannot be used. -/
theorem writerStep_gone {id : Nat} (hgone : id ∉ k.heap.nodes) (hw : k.writer.reading = true)
    (hheld : .node id ∈ k.writer.holds) : writerStep k = none := by
  have hnone : k.heap.nodes.lookup id = none := Finmap.lookup_eq_none.mpr hgone
  unfold writerStep
  cases hwriter : k.writer with
  | idle => rfl
  | walk r it =>
      rw [hwriter] at hheld
      obtain rfl := List.mem_singleton.mp hheld
      simp only [hnone]
      rfl
  | found r it =>
      rw [hwriter] at hheld
      obtain rfl := List.mem_singleton.mp hheld
      simp only [followPrev, hnone]
      rfl
  | store i r it prev =>
      rw [hwriter] at hw
      cases hw

/-- In a run in which the timer frees no entry to which the writer holds a link: the memory
    holds the list that calls of `add_message` and `trigger_messages` make, each run by itself,
    for the reminders linked and the deliveries made so far; and the writer's next access is
    possible. Outside of the stores of `list_add_tail` the timer can always run, and when it
    frees the entry at which the writer stands, the writer's next access is a fault. -/
theorem interrupted_run {moves : List Move}
    (hC : AllSteps (Kernel.step ktime_get) (Undisturbed ktime_get) Kernel.init moves)
    (hrun : run (Kernel.step ktime_get) Kernel.init moves = some k) :
    (∃ ops t, run (step ktime_get) State.init ops = some t ∧ added ops = k.added ∧
      t.delivered = k.delivered ∧
      (k.writer.reading = true → ∃ rs, k.heap.Linked rs ∧ contents rs = t.reminders)) ∧
    (k.writer ≠ .idle → ∃ k', Kernel.step ktime_get k .go = some k') ∧
    (k.writer.reading = true → ∃ k', Kernel.step ktime_get k .tick = some k' ∧
      (¬ Undisturbed ktime_get k .tick → Kernel.step ktime_get k' .go = none)) := by
  obtain ⟨ops, t, h⟩ : ∃ ops t, Tracks ktime_get k ops t := by
    refine run_induct (fun _ k => ∃ ops t, Tracks ktime_get k ops t) ⟨[], _, tracks_init⟩ ?_ hC
      hrun
    rintro _ k m k' ⟨ops, t, h⟩ hC hs
    exact tracks_step h hC hs
  refine ⟨⟨ops, t, h.calls, h.added, h.delivered, linked_of_reading h.holds⟩, fun hgo => ?_,
    fun hw => ?_⟩
  · obtain ⟨k', hk', -⟩ := holds_go h.holds hgo
    exact ⟨k', hk'⟩
  · obtain ⟨rs, hlinked, hl⟩ := linked_of_reading h.holds hw
    obtain ⟨h', hheap, -, -, hgone⟩ := linked_walk ktime_get k.reads hlinked hl
    refine ⟨_, congrArg (Option.map k.after) hheap, fun hno => ?_⟩
    unfold Undisturbed at hno
    push Not at hno
    obtain ⟨id, hid, hheld⟩ := hno _ hheap
    exact writerStep_gone (hgone id hid) hw hheld

end

/-- A reminder for the time 5 is stored, then one for the time 9; the timer delivers the first
    one when the second has been compared with it. -/
def interruptedMoves : List Move :=
  [.add ⟨5, [], []⟩, .go, .go, .go, .go, .go, .go, .add ⟨9, [], []⟩, .go, .tick, .go, .go, .go,
    .go, .go, .go]

theorem interrupted_run_two : ∃ k, run (Kernel.step fun n => n + 5) Kernel.init interruptedMoves =
      some k ∧ ∃ ops t, run (step fun n => n + 5) State.init ops = some t ∧
        added ops = k.added ∧ t.delivered = k.delivered := by
  obtain ⟨k, hk⟩ := Option.isSome_iff_exists.mp (by decide +kernel :
    (run (Kernel.step fun n => n + 5) Kernel.init interruptedMoves).isSome = true)
  obtain ⟨⟨ops, t, hops, hadded, hdelivered, -⟩, -⟩ := interrupted_run (by decide +kernel) hk
  exact ⟨k, hk, ops, t, hops, hadded, hdelivered⟩

end KernelBasecamp.Reminders
