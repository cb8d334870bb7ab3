/-
  Pictures in a flat buffer, and loops that store cell after cell into them.

  `put` stores one cell; a cell outside the buffer is a fault (`none`). A loop whose rounds are
  lists of stores is a list of stores (`foldlM_putAll`), so a nest of loops comes down to
  `putAll`:

  * `putAll_isSome_iff`: all stores are inside the buffer.
  * `putAll_getElem_of_mem`, `putAll_getElem_of_not_mem`: what a cell holds afterwards, when no
    cell is given two values (`SingleValued`).
  * `cell_inj`: in rows of `cols` cells each cell has one column and one row.
-/
import Mathlib

namespace KernelBasecamp.Lib

universe u v

variable {α : Type u} {β : Type v} {n : Nat}

/-! ## Stores -/

def put (m : Vector α n) (i : Nat) (a : α) : Option (Vector α n) :=
  if h : i < n then some (m.set i a h) else none

/-- One store after the other. -/
def putAll (m : Vector α n) (ws : List (Nat × α)) : Option (Vector α n) :=
  ws.foldlM (fun m w => put m w.1 w.2) m

theorem putAll_cons (m : Vector α n) (w : Nat × α) (ws : List (Nat × α)) :
    putAll m (w :: ws) = (put m w.1 w.2).bind fun m' => putAll m' ws := rfl

theorem putAll_append (m : Vector α n) (ws ws' : List (Nat × α)) :
    putAll m (ws ++ ws') = (putAll m ws).bind fun m' => putAll m' ws' :=
  List.foldlM_append

theorem putAll_isSome_iff (m : Vector α n) (ws : List (Nat × α)) :
    (putAll m ws).isSome ↔ ∀ w ∈ ws, w.1 < n := by
  induction ws generalizing m with
  | nil => exact iff_of_true rfl fun _ hw => absurd hw List.not_mem_nil
  | cons w ws ih =>
      rw [putAll_cons, List.forall_mem_cons]
      unfold put
      split
      · next hlt => exact (ih _).trans (and_iff_right hlt).symm
      · next hlt => exact iff_of_false Bool.false_ne_true fun h => hlt h.1

theorem put_getElem {m m' : Vector α n} {i k : Nat} {a : α} (h : put m i a = some m')
    (hk : k < n) : m'[k] = if i = k then a else m[k] := by
  unfold put at h
  split at h
  · cases h
    exact Vector.getElem_set ..
  · cases h

theorem putAll_getElem_of_not_mem {m m' : Vector α n} {ws : List (Nat × α)} {k : Nat}
    (h : putAll m ws = some m') (hk : k < n) (hnot : ∀ w ∈ ws, w.1 ≠ k) : m'[k] = m[k] := by
  induction ws generalizing m with
  | nil =>
      cases h
      rfl
  | cons w ws ih =>
      rw [putAll_cons] at h
      obtain ⟨m₁, h₁, h⟩ := Option.bind_eq_some_iff.mp h
      obtain ⟨hw, hws⟩ := List.forall_mem_cons.mp hnot
      rw [ih h hws, put_getElem h₁ hk, if_neg hw]

/-- No cell is given two values. -/
def SingleValued (ws : List (Nat × α)) : Prop :=
  ∀ w ∈ ws, ∀ w' ∈ ws, w.1 = w'.1 → w.2 = w'.2

theorem putAll_getElem_of_mem {m m' : Vector α n} {ws : List (Nat × α)} {k : Nat} {a : α}
    (h : putAll m ws = some m') (hk : k < n) (hws : SingleValued ws) (hmem : (k, a) ∈ ws) :
    m'[k] = a := by
  induction ws generalizing m with
  | nil => exact absurd hmem List.not_mem_nil
  | cons w ws ih =>
      rw [putAll_cons] at h
      obtain ⟨m₁, h₁, h⟩ := Option.bind_eq_some_iff.mp h
      have htail : SingleValued ws := fun u hu u' hu' =>
        hws u (List.mem_cons_of_mem _ hu) u' (List.mem_cons_of_mem _ hu')
      by_cases hlater : ∃ u ∈ ws, u.1 = k
      · -- a later store gives the cell the same value
        obtain ⟨⟨i, b⟩, hu, rfl⟩ := hlater
        have hb : a = b := hws _ hmem _ (List.mem_cons_of_mem _ hu) rfl
        exact ih h htail (hb ▸ hu)
      · have hnot : ∀ u ∈ ws, u.1 ≠ k := fun u hu he => hlater ⟨u, hu, he⟩
        rw [putAll_getElem_of_not_mem h hk hnot, put_getElem h₁ hk]
        rcases List.mem_cons.mp hmem with rfl | hmem
        · exact if_pos rfl
        · exact absurd rfl (hnot _ hmem)

/-! ## Loops -/

/-- A loop whose rounds are lists of stores. -/
theorem foldlM_putAll {f : Vector α n → β → Option (Vector α n)} {g : β → List (Nat × α)}
    {l : List β} (h : ∀ b ∈ l, ∀ m, f m b = putAll m (g b)) (m : Vector α n) :
    l.foldlM f m = putAll m (l.flatMap g) := by
  induction l generalizing m with
  | nil => rfl
  | cons b l ih =>
      obtain ⟨hb, hl⟩ := List.forall_mem_cons.mp h
      rw [List.foldlM_cons, List.flatMap_cons, putAll_append, hb]
      exact Option.bind_congr fun m' _ => ih hl m'

/-- A loop with one store in a round. -/
theorem foldlM_put {f : Vector α n → β → Option (Vector α n)} {g : β → Nat × α} {l : List β}
    (h : ∀ b ∈ l, ∀ m, f m b = put m (g b).1 (g b).2) (m : Vector α n) :
    l.foldlM f m = putAll m (l.map g) := by
  induction l generalizing m with
  | nil => rfl
  | cons b l ih =>
      obtain ⟨hb, hl⟩ := List.forall_mem_cons.mp h
      rw [List.foldlM_cons, List.map_cons, putAll_cons, hb]
      exact Option.bind_congr fun m' _ => ih hl m'

/-! ## Rows and columns -/

/-- The stores of two nested loops over `h` rows and `w` columns, in rows of `cols` cells. -/
def box (cols base w h : Nat) (v : Nat → Nat → α) : List (Nat × α) :=
  (List.range h).flatMap fun j => (List.range w).map fun i => (base + (i + cols * j), v i j)

theorem mem_box {cols base w h : Nat} {v : Nat → Nat → α} {p : Nat × α} :
    p ∈ box cols base w h v ↔ ∃ j < h, ∃ i < w, p = (base + (i + cols * j), v i j) := by
  simp only [box, List.mem_flatMap, List.mem_map, List.mem_range, eq_comm]

theorem foldlM_box {cols base : Nat} {v : Nat → Nat → α} (w h : Nat) (m : Vector α n) :
    (List.range h).foldlM (fun m j =>
      (List.range w).foldlM (fun m i => put m (base + (i + cols * j)) (v i j)) m) m =
        putAll m (box cols base w h v) :=
  foldlM_putAll (fun j _ m =>
    foldlM_put (g := fun i => (base + (i + cols * j), v i j)) (fun _ _ _ => rfl) m) m

theorem cell_add (cols x y i j : Nat) :
    x + cols * y + (i + cols * j) = x + i + cols * (y + j) := by
  rw [Nat.mul_add]
  omega

theorem cell_inj {cols x x' y y' : Nat} (hx : x < cols) (hx' : x' < cols) :
    x + cols * y = x' + cols * y' ↔ x = x' ∧ y = y' := by
  have hpos : 0 < cols := Nat.zero_lt_of_lt hx
  constructor
  · intro h
    have hmod := congrArg (· % cols) h
    have hdiv := congrArg (· / cols) h
    simp only [Nat.add_mul_mod_self_left, Nat.mod_eq_of_lt hx, Nat.mod_eq_of_lt hx'] at hmod
    simp only [Nat.add_mul_div_left _ _ hpos, Nat.div_eq_of_lt hx, Nat.div_eq_of_lt hx',
      Nat.zero_add] at hdiv
    exact ⟨hmod, hdiv⟩
  · rintro ⟨rfl, rfl⟩
    rfl

theorem cell_lt {cols rows x y : Nat} (hx : x < cols) (hy : y < rows) :
    x + cols * y < cols * rows :=
  calc x + cols * y < cols + cols * y := Nat.add_lt_add_right hx _
    _ = cols * (y + 1) := by rw [Nat.mul_succ, Nat.add_comm]
    _ ≤ cols * rows := Nat.mul_le_mul_left _ hy

end KernelBasecamp.Lib
