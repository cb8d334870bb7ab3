/-
  What a shared work queue is for. Items are appended, taken from the head by an agent, and
  settled by that agent, each with a fate (done, given up, ...).

  `Ledger` is the state of such a system with the history of what happened to the items, and
  `LStep` what may happen. `Good` is the invariant; it gives

  * `Good.exists_unique_place`: every item ever appended is in exactly one place;
  * `Good.order`: the items are taken in the order in which they were appended;
  * `Good.settled_once`: no item is settled twice with one fate;
  * `Good.at_rest`: when nobody holds an item, the appended ones are the queued and the settled.

  The agents, items and fates are arbitrary types. Items are told apart by equality, so an
  item may be appended only once.
-/
import Mathlib

namespace KernelBasecamp.Lib

universe u v w

/-- Agents `ι`, items `β`, fates `φ`. -/
structure Ledger (ι : Type u) (β : Type v) (φ : Type w) where
  queue : List β
  held : ι → Option β
  appended : List β
  taken : List (ι × β)
  settled : φ → List (ι × β)

/-- Where an item can be. -/
inductive Place (ι : Type u) (φ : Type w) where
  | queued
  | held (i : ι)
  | settled (f : φ)
  deriving DecidableEq, Repr

variable {ι : Type u} {β : Type v} {φ : Type w}

/-- The item is in the place. -/
def Ledger.At (l : Ledger ι β φ) (b : β) : Place ι φ → Prop
  | .queued => b ∈ l.queue
  | .held i => l.held i = some b
  | .settled f => ∃ i, (i, b) ∈ l.settled f

/-- What can happen to the ledger. -/
inductive LStep [DecidableEq ι] [DecidableEq φ] (l : Ledger ι β φ) : Ledger ι β φ → Prop
  | append (b : β) (hnew : b ∉ l.appended) :
      LStep l { l with queue := l.queue ++ [b], appended := l.appended ++ [b] }
  | take (i : ι) (b : β) (rest : List β) (hfree : l.held i = none) (hq : l.queue = b :: rest) :
      LStep l { l with
        queue := rest
        held := Function.update l.held i (some b)
        taken := l.taken ++ [(i, b)] }
  | settle (i : ι) (b : β) (f : φ) (hheld : l.held i = some b) :
      LStep l { l with
        held := Function.update l.held i none
        settled := Function.update l.settled f (l.settled f ++ [(i, b)]) }

/-- The invariant of the ledger. -/
structure Good (l : Ledger ι β φ) : Prop where
  fresh : l.appended.Nodup
  order : l.taken.map Prod.snd ++ l.queue = l.appended
  taken_iff : ∀ i b, (i, b) ∈ l.taken ↔ l.held i = some b ∨ ∃ f, (i, b) ∈ l.settled f
  held_open : ∀ i b f, l.held i = some b → (i, b) ∉ l.settled f
  one_fate : ∀ x f g, x ∈ l.settled f → x ∈ l.settled g → f = g
  settled_once : ∀ f, (l.settled f).Nodup

namespace Good

variable {l l' : Ledger ι β φ}

theorem taken_nodup (h : Good l) : (l.taken.map Prod.snd).Nodup := by
  have hn := h.fresh
  rw [← h.order] at hn
  exact (List.nodup_append.mp hn).1

theorem not_queued_of_taken (h : Good l) {i : ι} {b : β} (ht : (i, b) ∈ l.taken) :
    b ∉ l.queue := by
  intro hq
  have hn := h.fresh
  rw [← h.order] at hn
  exact (List.nodup_append.mp hn).2.2 b (List.mem_map_of_mem ht) b hq rfl

/-- Only one agent ever takes an item. -/
theorem taker_unique (h : Good l) {i j : ι} {b : β} (hi : (i, b) ∈ l.taken)
    (hj : (j, b) ∈ l.taken) : i = j :=
  congrArg Prod.fst (List.inj_on_of_nodup_map h.taken_nodup hi hj rfl)

theorem mem_appended (h : Good l) {b : β} :
    b ∈ l.appended ↔ (∃ i, (i, b) ∈ l.taken) ∨ b ∈ l.queue := by
  rw [← h.order, List.mem_append, List.mem_map]
  constructor
  · rintro (⟨⟨i, c⟩, ht, rfl⟩ | hq)
    · exact .inl ⟨i, ht⟩
    · exact .inr hq
  · rintro (⟨i, ht⟩ | hq)
    · exact .inl ⟨(i, b), ht, rfl⟩
    · exact .inr hq

theorem taken_of_place (h : Good l) {b : β} {p : Place ι φ} (hp : p ≠ .queued)
    (hat : l.At b p) : ∃ i, (i, b) ∈ l.taken ∧ (∀ j, p = .held j → j = i) ∧
      ∀ f, p = .settled f → (i, b) ∈ l.settled f := by
  cases p with
  | queued => exact absurd rfl hp
  | held i =>
      refine ⟨i, (h.taken_iff i b).mpr (.inl hat), fun j hj => ?_, ?_⟩
      · cases hj
        rfl
      · intro f hf
        cases hf
  | settled f =>
      obtain ⟨i, hi⟩ := hat
      refine ⟨i, (h.taken_iff i b).mpr (.inr ⟨f, hi⟩), ?_, fun g hg => ?_⟩
      · intro j hj
        cases hj
      · cases hg
        exact hi

/-- No item is in two places. -/
theorem place_unique (h : Good l) {b : β} {p q : Place ι φ} (hp : l.At b p) (hq : l.At b q) :
    p = q := by
  by_cases hpq : p = .queued
  · by_cases hqq : q = .queued
    · rw [hpq, hqq]
    · obtain ⟨i, hi, -, -⟩ := h.taken_of_place hqq hq
      subst hpq
      exact absurd hp (h.not_queued_of_taken hi)
  · obtain ⟨i, hi, hih, his⟩ := h.taken_of_place hpq hp
    by_cases hqq : q = .queued
    · subst hqq
      exact absurd hq (h.not_queued_of_taken hi)
    · obtain ⟨j, hj, hjh, hjs⟩ := h.taken_of_place hqq hq
      obtain rfl := h.taker_unique hi hj
      cases p with
      | queued => exact absurd rfl hpq
      | held k =>
          obtain rfl := hih k rfl
          cases q with
          | queued => exact absurd rfl hqq
          | held k' => rw [hjh k' rfl]
          | settled f => exact absurd (hjs f rfl) (h.held_open k b f hp)
      | settled f =>
          cases q with
          | queued => exact absurd rfl hqq
          | held k =>
              obtain rfl := hjh k rfl
              exact absurd (his f rfl) (h.held_open k b f hq)
          | settled g => rw [h.one_fate (i, b) f g (his f rfl) (hjs g rfl)]

theorem appended_iff_place (h : Good l) {b : β} : b ∈ l.appended ↔ ∃ p, l.At b p := by
  rw [h.mem_appended]
  constructor
  · rintro (⟨i, hi⟩ | hq)
    · rcases (h.taken_iff i b).mp hi with hheld | ⟨f, hf⟩
      · exact ⟨.held i, hheld⟩
      · exact ⟨.settled f, i, hf⟩
    · exact ⟨.queued, hq⟩
  · rintro ⟨p, hp⟩
    by_cases hpq : p = .queued
    · subst hpq
      exact .inr hp
    · obtain ⟨i, hi, -, -⟩ := h.taken_of_place hpq hp
      exact .inl ⟨i, hi⟩

/-- Every item ever appended is in exactly one place. -/
theorem exists_unique_place (h : Good l) {b : β} (hb : b ∈ l.appended) : ∃! p, l.At b p := by
  obtain ⟨p, hp⟩ := h.appended_iff_place.mp hb
  exact ⟨p, hp, fun q hq => h.place_unique hq hp⟩

/-- The items settled with one fate are settled once each, whoever settled them. -/
theorem settled_items_nodup (h : Good l) (f : φ) : ((l.settled f).map Prod.snd).Nodup := by
  refine List.Nodup.map_on ?_ (h.settled_once f)
  rintro ⟨i, b⟩ hx ⟨j, c⟩ hy hbc
  obtain rfl : b = c := hbc
  have hi := (h.taken_iff i b).mpr (.inr ⟨f, hx⟩)
  have hj := (h.taken_iff j b).mpr (.inr ⟨f, hy⟩)
  rw [h.taker_unique hi hj]

/-- When nobody holds an item, the appended items are those in the queue and those settled, once
    each. -/
theorem at_rest (h : Good l) (hheld : ∀ i, l.held i = none) {fates : List φ}
    (hnodup : fates.Nodup) (hall : ∀ f, f ∈ fates) :
    (l.queue ++ fates.flatMap fun f => (l.settled f).map Prod.snd).Perm l.appended := by
  have hsettled : ∀ {b f}, b ∈ (l.settled f).map Prod.snd ↔ l.At b (.settled f) := by
    intro b f
    rw [List.mem_map]
    exact ⟨fun ⟨⟨i, _⟩, hi, hb⟩ => ⟨i, hb ▸ hi⟩, fun ⟨i, hi⟩ => ⟨(i, b), hi, rfl⟩⟩
  have hqueue : l.queue.Nodup := by
    have hn := h.fresh
    rw [← h.order] at hn
    exact (List.nodup_append.mp hn).2.1
  refine (List.perm_ext_iff_of_nodup (List.nodup_append.mpr ⟨hqueue, ?_, ?_⟩) h.fresh).mpr ?_
  · refine List.nodup_flatMap.mpr ⟨fun f _ => h.settled_items_nodup f, ?_⟩
    refine hnodup.imp fun hne => ?_
    intro b hf hg
    have hplace := h.place_unique (hsettled.mp hf) (hsettled.mp hg)
    exact hne (by cases hplace; rfl)
  · rintro b hb c hc rfl
    obtain ⟨f, -, hf⟩ := List.mem_flatMap.mp hc
    have hplace := h.place_unique (p := .queued) hb (hsettled.mp hf)
    cases hplace
  · intro b
    rw [h.appended_iff_place, List.mem_append, List.mem_flatMap]
    constructor
    · rintro (hq | ⟨f, -, hf⟩)
      · exact ⟨.queued, hq⟩
      · exact ⟨.settled f, hsettled.mp hf⟩
    · rintro ⟨p, hp⟩
      cases p with
      | queued => exact .inl hp
      | held i =>
          have hnone := hheld i
          rw [show l.held i = some b from hp] at hnone
          cases hnone
      | settled f => exact .inr ⟨f, hall f, hsettled.mpr hp⟩

/-! ## The empty ledger is good and the steps keep the invariant -/

theorem empty : Good (⟨[], fun _ => none, [], [], fun _ => []⟩ : Ledger ι β φ) where
  fresh := List.nodup_nil
  order := rfl
  taken_iff := by simp
  held_open := by simp
  one_fate := by simp
  settled_once := fun _ => List.nodup_nil

theorem append (h : Good l) {b : β} (hnew : b ∉ l.appended) :
    Good { l with queue := l.queue ++ [b], appended := l.appended ++ [b] } where
  fresh := List.nodup_append.mpr ⟨h.fresh, List.nodup_singleton b, fun c hc d hd hcd => by
    rw [List.mem_singleton.mp hd] at hcd
    exact hnew (hcd ▸ hc)⟩
  order := by rw [← List.append_assoc, h.order]
  taken_iff := h.taken_iff
  held_open := h.held_open
  one_fate := h.one_fate
  settled_once := h.settled_once

variable [DecidableEq ι]

theorem take (h : Good l) {i : ι} {b : β} {rest : List β} (hfree : l.held i = none)
    (hq : l.queue = b :: rest) :
    Good { l with
      queue := rest
      held := Function.update l.held i (some b)
      taken := l.taken ++ [(i, b)] } := by
  have hb : b ∈ l.queue := hq ▸ List.mem_cons_self
  refine ⟨h.fresh, ?_, fun j c => ?_, fun j c f hheld => ?_, h.one_fate, h.settled_once⟩
  · rw [← h.order, hq, List.map_append, List.append_assoc]
    rfl
  · dsimp only
    rw [List.mem_append, List.mem_singleton, h.taken_iff j c]
    by_cases hj : j = i
    · subst hj
      rw [Function.update_self, hfree, Prod.mk.injEq, Option.some.injEq]
      simp [or_comm, eq_comm]
    · rw [Function.update_of_ne hj]
      simp [hj]
  · dsimp only at hheld
    by_cases hj : j = i
    · subst hj
      rw [Function.update_self] at hheld
      cases hheld
      intro hs
      exact h.not_queued_of_taken ((h.taken_iff j b).mpr (.inr ⟨f, hs⟩)) hb
    · rw [Function.update_of_ne hj] at hheld
      exact h.held_open j c f hheld

omit [DecidableEq ι] in
theorem mem_update_settled [DecidableEq φ] {i j : ι} {b c : β} {f g : φ} :
    (j, c) ∈ Function.update l.settled f (l.settled f ++ [(i, b)]) g ↔
      (j, c) ∈ l.settled g ∨ (g = f ∧ j = i ∧ c = b) := by
  by_cases hg : g = f
  · subst hg
    rw [Function.update_self, List.mem_append, List.mem_singleton, Prod.mk.injEq]
    simp
  · rw [Function.update_of_ne hg]
    simp [hg]

variable [DecidableEq φ]

theorem settle (h : Good l) {i : ι} {b : β} (f : φ) (hheld : l.held i = some b) :
    Good { l with
      held := Function.update l.held i none
      settled := Function.update l.settled f (l.settled f ++ [(i, b)]) } := by
  refine ⟨h.fresh, h.order, fun j c => ?_, fun j c g hj => ?_, ?_, fun g => ?_⟩
  · simp only [mem_update_settled, h.taken_iff j c]
    by_cases hj : j = i
    · subst hj
      rw [Function.update_self, hheld, Option.some.injEq]
      constructor
      · rintro (rfl | ⟨g, hg⟩)
        · exact .inr ⟨f, .inr ⟨rfl, rfl, rfl⟩⟩
        · exact .inr ⟨g, .inl hg⟩
      · rintro (hno | ⟨g, hg | ⟨-, -, rfl⟩⟩)
        · cases hno
        · exact .inr ⟨g, hg⟩
        · exact .inl rfl
    · rw [Function.update_of_ne hj]
      simp [hj]
  · dsimp only at hj
    rw [mem_update_settled]
    by_cases hji : j = i
    · subst hji
      rw [Function.update_self] at hj
      cases hj
    · rw [Function.update_of_ne hji] at hj
      rintro (hs | ⟨-, rfl, -⟩)
      · exact h.held_open j c g hj hs
      · exact hji rfl
  · rintro ⟨j, c⟩ g g' hx hy
    rcases mem_update_settled.mp hx with hg | ⟨hgf, hji, hcb⟩
    · rcases mem_update_settled.mp hy with hg' | ⟨-, hji, hcb⟩
      · exact h.one_fate _ _ _ hg hg'
      · rw [hji, hcb] at hg
        exact absurd hg (h.held_open i b g hheld)
    · rcases mem_update_settled.mp hy with hg' | ⟨hgf', -, -⟩
      · rw [hji, hcb] at hg'
        exact absurd hg' (h.held_open i b g' hheld)
      · rw [hgf, hgf']
  · dsimp only
    by_cases hg : g = f
    · subst hg
      rw [Function.update_self]
      refine List.nodup_append.mpr ⟨h.settled_once g, List.nodup_singleton _, ?_⟩
      rintro x hx y hy rfl
      rw [List.mem_singleton.mp hy] at hx
      exact h.held_open i b g hheld hx
    · rw [Function.update_of_ne hg]
      exact h.settled_once g

/-- Every step keeps the invariant. -/
theorem step (h : Good l) (hs : LStep l l') : Good l' := by
  cases hs with
  | append b hnew => exact h.append hnew
  | take i b rest hfree hq => exact h.take hfree hq
  | settle i b f hheld => exact h.settle f hheld

end Good

end KernelBasecamp.Lib
