/-
  What `reverse_interval` and `reverse_string` do to the memory.

  An interval is the middle of a memory `pre ++ mid ++ post`: the loop of `reverse_interval`
  swaps the two ends of `mid` and goes on with what lies between them, so the induction is on
  `mid` from both ends (`reverseLoop_spec`). `toupper` is applied to each byte, and twice to
  the middle one of an odd length, which is swapped with itself (`raised`).

  A text of words is reversed as a whole first, and then word after word
  (`wordLoop_spec`). `reverse_string_spec` puts the two together: the words, raised, come in
  reverse order, except that a single word is left reversed.
-/
import Mathlib
import KernelBasecamp.Lib.CString
import KernelBasecamp.Lib.Words
import KernelBasecamp.Procfs.Rw

namespace KernelBasecamp.Procfs

open Lib Lib.CMem

/-! ## Letters -/

theorem toupper_ne_zero {c : UInt8} (h : c ≠ 0) : toupper c ≠ 0 := by
  unfold toupper
  grind

theorem toupper_ne_space {c : UInt8} (h : c ≠ 32) : toupper c ≠ 32 := by
  unfold toupper
  grind

/-- A letter as one round of `reverse_interval` leaves it. -/
def cased (make_upper : Bool) (c : UInt8) : UInt8 := if make_upper then toupper c else c

@[simp] theorem cased_false (c : UInt8) : cased false c = c := rfl

@[simp] theorem cased_true (c : UInt8) : cased true c = toupper c := rfl

/-- The bytes of an interval as `reverse_interval` leaves them, in the old order: the middle
    one of an odd length is its own partner and goes through `toupper` twice. -/
def raised (make_upper : Bool) (mid : List UInt8) : List UInt8 :=
  mid.mapIdx fun i c =>
    if 2 * i + 1 = mid.length then cased make_upper (cased make_upper c) else cased make_upper c

@[simp] theorem raised_length (make_upper : Bool) (mid : List UInt8) :
    (raised make_upper mid).length = mid.length := List.length_mapIdx

theorem raised_cons_append (make_upper : Bool) (x z : UInt8) (mid : List UInt8) :
    raised make_upper (x :: (mid ++ [z])) =
      cased make_upper x :: (raised make_upper mid ++ [cased make_upper z]) := by
  have hlen : (x :: (mid ++ [z])).length = mid.length + 2 := by simp
  unfold raised
  rw [List.mapIdx_cons, List.mapIdx_append, List.mapIdx_singleton, hlen, if_neg (by omega),
    if_neg (by omega)]
  congr 3
  funext i c
  simp only [show 2 * (i + 1) + 1 = mid.length + 2 ↔ 2 * i + 1 = mid.length by omega]

@[simp] theorem raised_false (mid : List UInt8) : raised false mid = mid := by
  refine List.ext_getElem (raised_length false mid) fun i _ _ => ?_
  simp only [raised, cased_false, ite_self, List.getElem_mapIdx]

/-- A byte that went through `toupper` once or twice. -/
def Raised (c' c : UInt8) : Prop := c' = toupper c ∨ c' = toupper (toupper c)

theorem raised_forall₂ (mid : List UInt8) : List.Forall₂ Raised (raised true mid) mid := by
  refine List.forall₂_iff_get.mpr ⟨raised_length true mid, fun i _ _ => ?_⟩
  simp only [raised, List.get_eq_getElem, List.getElem_mapIdx, cased_true]
  split
  · exact .inr rfl
  · exact .inl rfl

/-- `toupper` makes no byte that it would leave alone and that was not there. -/
theorem Raised.not_mem {b : UInt8} (hb : ∀ c, c ≠ b → toupper c ≠ b) {v w : List UInt8}
    (h : List.Forall₂ Raised v w) (hw : b ∉ w) : b ∉ v := by
  induction h with
  | nil => exact List.not_mem_nil
  | cons hc _ ih =>
      obtain ⟨hne, hw⟩ := List.ne_and_not_mem_of_not_mem_cons hw
      refine List.not_mem_cons_of_ne_of_not_mem ?_ (ih hw)
      rcases hc with rfl | rfl
      · exact (hb _ hne.symm).symm
      · exact (hb _ (hb _ hne.symm)).symm

/-! ## One interval -/

/-- A round at the two ends of an interval. -/
theorem reverseStep_ends (make_upper : Bool) (pre mid post : List UInt8) (x z : UInt8)
    {a b : Int} (ha : a = pre.length) (hb : b = pre.length + mid.length + 1) :
    reverseStep make_upper (pre ++ x :: (mid ++ z :: post)) a b =
      some (pre ++ cased make_upper z :: (mid ++ cased make_upper x :: post)) := by
  have hassoc : ∀ u v : UInt8,
      pre ++ u :: (mid ++ v :: post) = (pre ++ u :: mid) ++ v :: post := by simp
  have hb' : ∀ u : UInt8, b = ((pre ++ u :: mid).length : Int) := by
    intro u
    rw [hb, List.length_append, List.length_cons]
    omega
  have hload : ∀ u v : UInt8, load (pre ++ u :: (mid ++ v :: post)) b = some v := by
    intro u v
    rw [hassoc, load_at _ _ _ (hb' u)]
  have hstore : ∀ u v w : UInt8, store (pre ++ u :: (mid ++ v :: post)) b w =
      some (pre ++ u :: (mid ++ w :: post)) := by
    intro u v w
    rw [hassoc, store_at _ _ _ _ (hb' u), hassoc]
  unfold reverseStep swap_chars
  cases make_upper with
  | false =>
      simp only [Option.bind_eq_bind, load_at _ _ _ ha, store_at _ _ _ _ ha, hload, hstore,
        Option.bind_some, Bool.false_eq_true, if_false, cased_false]
  | true =>
      simp only [Option.bind_eq_bind, load_at _ _ _ ha, store_at _ _ _ _ ha, hload, hstore,
        Option.bind_some, if_true, cased_true]

/-- A round on a single byte. -/
theorem reverseStep_middle (make_upper : Bool) (pre post : List UInt8) (x : UInt8) {a b : Int}
    (ha : a = pre.length) (hb : b = pre.length) :
    reverseStep make_upper (pre ++ x :: post) a b =
      some (pre ++ cased make_upper (cased make_upper x) :: post) := by
  unfold reverseStep swap_chars
  cases make_upper with
  | false =>
      simp only [Option.bind_eq_bind, load_at _ _ _ ha, store_at _ _ _ _ ha, load_at _ _ _ hb,
        store_at _ _ _ _ hb, Option.bind_some, Bool.false_eq_true, if_false, cased_false]
  | true =>
      simp only [Option.bind_eq_bind, load_at _ _ _ ha, store_at _ _ _ _ ha, load_at _ _ _ hb,
        store_at _ _ _ _ hb, Option.bind_some, if_true, cased_true]

theorem reverseLoop_next {make_upper : Bool} {l i : Nat} {m m' : List UInt8} {a b : Int}
    (hi : i ≤ l) (hl : l + 1 < 2 ^ 64) (h : reverseStep make_upper m a b = some m') :
    reverseLoop make_upper l i m a b = reverseLoop make_upper l (i + 1) m' (a + 1) (b - 1) := by
  rw [reverseLoop, if_pos hi]
  split
  · next hnone => rw [h] at hnone; cases hnone
  · next m₁ hsome =>
      rw [h] at hsome
      cases hsome
      rw [Nat.mod_eq_of_lt (by omega)]

theorem reverseLoop_done {make_upper : Bool} {l i : Nat} {m : List UInt8} {a b : Int}
    (hi : l < i) : reverseLoop make_upper l i m a b = some m := by
  rw [reverseLoop, if_neg (by omega)]

/-- The loop turns the interval round when the rounds left are half its length. -/
theorem reverseLoop_spec (make_upper : Bool) {l i : Nat} (hl : l + 1 < 2 ^ 64)
    (pre mid post : List UInt8) (hrounds : i + (mid.length + 1) / 2 = l + 1) {a b : Int}
    (ha : a = pre.length) (hb : b = pre.length + mid.length - 1) :
    reverseLoop make_upper l i (pre ++ (mid ++ post)) a b =
      some (pre ++ ((raised make_upper mid).reverse ++ post)) := by
  induction mid using List.bidirectionalRec generalizing i pre post a b with
  | nil => exact reverseLoop_done (by simp at hrounds; omega)
  | singleton x =>
      rw [List.length_singleton] at hrounds hb
      rw [List.singleton_append, reverseLoop_next (by omega) hl
        (reverseStep_middle make_upper pre post x ha (by omega)), reverseLoop_done (by omega)]
      rfl
  | cons_append x mid z ih =>
      rw [List.length_cons, List.length_append, List.length_singleton] at hrounds hb
      have hmem : x :: (mid ++ [z]) ++ post = x :: (mid ++ z :: post) := by simp
      have hmem' : pre ++ cased make_upper z :: (mid ++ cased make_upper x :: post) =
          (pre ++ [cased make_upper z]) ++ (mid ++ cased make_upper x :: post) := by simp
      rw [hmem, reverseLoop_next (by omega) hl
        (reverseStep_ends make_upper pre mid post x z ha (by omega)), hmem',
        ih (pre ++ [cased make_upper z]) (cased make_upper x :: post) (by omega)
          (by rw [ha, List.length_append]; rfl)
          (by rw [hb, List.length_append, List.length_singleton]; omega),
        raised_cons_append]
      simp

/-- `reverse_interval` on a non-empty interval. -/
theorem reverse_interval_spec (make_upper : Bool) (pre mid post : List UInt8) (hne : mid ≠ [])
    (hlen : mid.length < 2 ^ 64) {a b : Int} (ha : a = pre.length)
    (hb : b = pre.length + mid.length - 1) :
    reverse_interval (pre ++ (mid ++ post)) a b make_upper =
      some (pre ++ ((raised make_upper mid).reverse ++ post)) := by
  have hpos := List.length_pos_of_ne_nil hne
  have hhalf : (((b - a).tdiv 2) % 2 ^ 64).toNat = (mid.length - 1) / 2 := by
    have hba : b - a = ((mid.length - 1 : Nat) : Int) := by omega
    rw [hba, Int.natCast_tdiv_eq_ediv]
    omega
  unfold reverse_interval
  rw [hhalf]
  exact reverseLoop_spec make_upper (by omega) pre mid post (by omega) ha hb

/-! ## Words -/

/-- A word of a C string. -/
structure Word (w : List UInt8) : Prop where
  ne_nil : w ≠ []
  no_nul : 0 ∉ w
  no_space : 32 ∉ w

instance (w : List UInt8) : Decidable (Word w) :=
  decidable_of_iff (w ≠ [] ∧ 0 ∉ w ∧ 32 ∉ w)
    ⟨fun h => ⟨h.1, h.2.1, h.2.2⟩, fun h => ⟨h.ne_nil, h.no_nul, h.no_space⟩⟩

/-- Words joined by single spaces. -/
def text (ws : List (List UInt8)) : List UInt8 := [32].intercalate ws

theorem text_cons_cons (w w' : List UInt8) (ws : List (List UInt8)) :
    text (w :: w' :: ws) = w ++ 32 :: text (w' :: ws) := by
  unfold text
  rw [List.intercalate_cons_cons, List.append_assoc, List.singleton_append]

theorem text_singleton (w : List UInt8) : text [w] = w := List.intercalate_singleton

theorem text_no_nul {ws : List (List UInt8)} (hws : ∀ w ∈ ws, Word w) : 0 ∉ text ws := by
  induction ws with
  | nil => exact List.not_mem_nil
  | cons w ws ih =>
      have hw := (hws w List.mem_cons_self).no_nul
      have hrest := ih fun v hv => hws v (List.mem_cons_of_mem _ hv)
      cases ws with
      | nil => rwa [text_singleton]
      | cons w' ws =>
          rw [text_cons_cons]
          simp [hw, hrest]

theorem text_ne_nil {ws : List (List UInt8)} (hne : ws ≠ []) (hws : ∀ w ∈ ws, Word w) :
    text ws ≠ [] := by
  cases ws with
  | nil => exact absurd rfl hne
  | cons w ws =>
      have hw := (hws w List.mem_cons_self).ne_nil
      cases ws with
      | nil => rwa [text_singleton]
      | cons w' ws =>
          rw [text_cons_cons]
          exact List.append_ne_nil_of_left_ne_nil hw _

theorem Word.reverse {w : List UInt8} (h : Word w) : Word w.reverse :=
  ⟨by simpa using h.ne_nil, by simpa using h.no_nul, by simpa using h.no_space⟩

theorem Word.raised {v w : List UInt8} (h : Word w) (hv : List.Forall₂ Raised v w) : Word v := by
  refine ⟨?_, Raised.not_mem (fun _ => toupper_ne_zero) hv h.no_nul,
    Raised.not_mem (fun _ => toupper_ne_space) hv h.no_space⟩
  rintro rfl
  cases hv
  exact h.ne_nil rfl

/-- Raising a text raises its words. -/
theorem raised_text {ws : List (List UInt8)} (hws : ∀ w ∈ ws, Word w) :
    ∃ vs, Procfs.raised true (text ws) = text vs ∧
      List.Forall₂ (List.Forall₂ Raised) vs ws ∧ ∀ v ∈ vs, Word v := by
  have hspace : ∀ c, Raised c 32 → c = 32 := by
    rintro c (rfl | rfl) <;> rfl
  obtain ⟨vs, hvs, hall⟩ := forall₂_intercalate hspace (raised_forall₂ (text ws))
  refine ⟨vs, hvs, hall, ?_⟩
  clear hvs
  induction hall with
  | nil => simp
  | cons hv _ ih =>
      rintro u (_ | ⟨_, hu⟩)
      · exact (hws _ List.mem_cons_self).raised hv
      · exact ih (fun w hw => hws w (List.mem_cons_of_mem _ hw)) u hu

/-! ## Strings -/

theorem strlenAt_spec {pre t : List UInt8} (ht : 0 ∉ t) (post : List UInt8) {p : Int}
    (hp : p = pre.length) : strlenAt (pre ++ (t ++ 0 :: post)) p = some t.length := by
  subst hp
  unfold strlenAt
  rw [if_pos (Int.natCast_nonneg _), Int.toNat_natCast, List.drop_left, strlen_append ht]

theorem strchrAt_found {pre t : List UInt8} {c : UInt8} (ht : 0 ∉ t) (hc : c ∉ t)
    (post : List UInt8) {p : Int} (hp : p = pre.length) :
    strchrAt (pre ++ (t ++ c :: post)) p c = some (some (p + t.length)) := by
  subst hp
  unfold strchrAt
  rw [if_pos (Int.natCast_nonneg _), Int.toNat_natCast, List.drop_left, strchr_append ht hc]
  rfl

theorem strchrAt_null {pre t : List UInt8} {c : UInt8} (ht : 0 ∉ t) (hc : c ∉ t) (hc₀ : c ≠ 0)
    (post : List UInt8) {p : Int} (hp : p = pre.length) :
    strchrAt (pre ++ (t ++ 0 :: post)) p c = some none := by
  subst hp
  unfold strchrAt
  rw [if_pos (Int.natCast_nonneg _), Int.toNat_natCast, List.drop_left, strchr_null ht hc hc₀]
  rfl

/-- A last word has no space behind it. -/
theorem Word.strchrAt_last {w : List UInt8} (hw : Word w) {y : UInt8} (hy : y ≠ 0 ∧ y ≠ 32)
    (pre post : List UInt8) {p : Int} (hp : p = pre.length) :
    strchrAt (pre ++ (w ++ y :: 0 :: post)) p 32 = some none := by
  have hnul : 0 ∉ w ++ [y] := by simp [hw.no_nul, hy.1.symm]
  have hspace : 32 ∉ w ++ [y] := by simp [hw.no_space, hy.2.symm]
  have hassoc : w ++ y :: 0 :: post = (w ++ [y]) ++ 0 :: post := by simp
  rw [hassoc, strchrAt_null hnul hspace (by decide) post hp]

theorem wordLoop_last {m : List UInt8} {se ws : Int} (hc : strchrAt m ws 32 = some none) :
    wordLoop m se ws = reverse_interval m ws (se - 1) false := by
  rw [wordLoop]
  split
  · next h => rw [hc] at h; cases h
  · rfl
  · next h => rw [hc] at h; cases h

theorem wordLoop_next {m m' : List UInt8} {se ws we : Int}
    (hc : strchrAt m ws 32 = some (some we))
    (hr : reverse_interval m ws (we - 1) false = some m') :
    wordLoop m se ws = wordLoop m' se (we + 1) := by
  rw [wordLoop]
  split
  · next h => rw [hc] at h; cases h
  · next h => rw [hc] at h; cases h
  · next we' h =>
      rw [hc] at h
      cases h
      split
      · next h => rw [hr] at h; cases h
      · next h => rw [hr] at h; cases h; rfl

/-- The loop reverses each word where it stands; `se` is the end of the text. -/
theorem wordLoop_spec {ws : List (List UInt8)} (hne : ws ≠ []) (hws : ∀ w ∈ ws, Word w) {y : UInt8}
    (hy : y ≠ 0 ∧ y ≠ 32) (hlen : (text ws).length < 2 ^ 64) (pre post : List UInt8) {se p : Int}
    (hp : p = pre.length) (hse : se = pre.length + (text ws).length) :
    wordLoop (pre ++ (text ws ++ y :: 0 :: post)) se p =
      some (pre ++ (text (ws.map List.reverse) ++ y :: 0 :: post)) := by
  induction ws generalizing pre p with
  | nil => exact absurd rfl hne
  | cons w ws ih =>
      have hw := hws w List.mem_cons_self
      cases ws with
      | nil =>
          rw [List.map_singleton, text_singleton, text_singleton]
          rw [text_singleton] at hlen hse
          rw [wordLoop_last (hw.strchrAt_last hy pre post hp),
            reverse_interval_spec false pre w _ hw.ne_nil hlen hp (by omega), raised_false]
      | cons w' ws =>
          have hrest : ∀ v ∈ w' :: ws, Word v := fun v hv => hws v (List.mem_cons_of_mem _ hv)
          rw [text_cons_cons, List.length_append, List.length_cons] at hlen hse
          rw [text_cons_cons, List.map_cons, List.map_cons, text_cons_cons, List.append_assoc,
            List.append_assoc, List.cons_append, List.cons_append]
          have hc := strchrAt_found hw.no_nul hw.no_space
            (text (w' :: ws) ++ y :: 0 :: post) hp
          have hr := reverse_interval_spec false pre w
            (32 :: (text (w' :: ws) ++ y :: 0 :: post)) hw.ne_nil (by omega) hp
            (show p + w.length - 1 = _ by omega)
          rw [raised_false] at hr
          have hpre : (pre ++ (w.reverse ++ [32])).length = pre.length + w.length + 1 := by
            simp only [List.length_append, List.length_reverse, List.length_singleton]
            omega
          have ih := ih (List.cons_ne_nil _ _) hrest (by omega) (pre ++ (w.reverse ++ [32]))
            (show p + w.length + 1 = _ by omega) (by omega)
          have hassoc : ∀ r, pre ++ (w.reverse ++ 32 :: r) = pre ++ (w.reverse ++ [32]) ++ r := by
            intro r
            simp only [List.append_assoc, List.singleton_append]
          rw [wordLoop_next hc hr, hassoc, ih, ← hassoc, List.map_cons]

/-- The words of a line in the order in which `reverse_string` leaves them: turned round, but
    a single word comes out reversed. -/
def turned : List (List UInt8) → List UInt8
  | [w] => w.reverse
  | ws => text ws.reverse

theorem turned_of_ne_one {ws : List (List UInt8)} (h : ws.length ≠ 1) :
    turned ws = text ws.reverse := by
  unfold turned
  split
  · exact absurd rfl h
  · rfl

theorem text_reverse (ws : List (List UInt8)) :
    (text ws).reverse = text (ws.map List.reverse).reverse := reverse_intercalate ws

theorem turned_length (ws : List (List UInt8)) : (turned ws).length = (text ws).length := by
  by_cases h : ws.length = 1
  · obtain ⟨w, rfl⟩ := List.length_eq_one_iff.mp h
    rw [text_singleton]
    exact List.length_reverse
  · rw [turned_of_ne_one h]
    unfold text
    rw [length_intercalate, length_intercalate, List.length_reverse, List.map_reverse,
      List.sum_reverse]

/-- The second half of `reverse_string`, on a text that has been reversed as a whole. -/
theorem second_pass {rs : List (List UInt8)} {y : UInt8} (hy : y ≠ 0 ∧ y ≠ 32) (hne : rs ≠ [])
    (hrs : ∀ r ∈ rs, Word r) (hlen : (text rs).length < 2 ^ 64) (pre post : List UInt8) {se p : Int}
    (hp : p = pre.length) (hse : se = pre.length + (text rs).length) :
    ((strchrAt (pre ++ (text rs ++ y :: 0 :: post)) p 32).bind fun we => match we with
      | none => some (pre ++ (text rs ++ y :: 0 :: post))
      | some _ => wordLoop (pre ++ (text rs ++ y :: 0 :: post)) se p) =
      some (pre ++ (turned (rs.map List.reverse).reverse ++ y :: 0 :: post)) := by
  cases rs with
  | nil => exact absurd rfl hne
  | cons r rs =>
      have hr := hrs r List.mem_cons_self
      cases rs with
      | nil =>
          rw [text_singleton, hr.strchrAt_last hy pre post hp]
          simp [turned]
      | cons r' rs =>
          have hfound := strchrAt_found hr.no_nul hr.no_space
            (text (r' :: rs) ++ y :: 0 :: post) hp
          have hloop := wordLoop_spec hne hrs hy hlen pre post hp hse
          rw [text_cons_cons, List.append_assoc, List.cons_append] at hloop ⊢
          rw [hfound, Option.bind_some, turned_of_ne_one (by simp), List.reverse_reverse]
          exact hloop

/-- A string of the words `ws` and one closing byte `y`; `vs` are the words raised. -/
structure Line (ws vs : List (List UInt8)) (y : UInt8) : Prop where
  ne_nil : ws ≠ []
  words : ∀ w ∈ ws, Word w
  raised_words : ∀ v ∈ vs, Word v
  raised_eq : raised true (text ws) = text vs
  closing : y ≠ 0 ∧ y ≠ 32
  length_lt : (text ws).length + 1 < 2 ^ 63

variable {ws vs : List (List UInt8)} {y : UInt8}

theorem line_of_words (hne : ws ≠ []) (hws : ∀ w ∈ ws, Word w) (hy : y ≠ 0 ∧ y ≠ 32)
    (hlen : (text ws).length + 1 < 2 ^ 63) :
    ∃ vs, Line ws vs y ∧ List.Forall₂ (List.Forall₂ Raised) vs ws := by
  obtain ⟨vs, hraised, hall, hvs⟩ := raised_text hws
  exact ⟨vs, ⟨hne, hws, hvs, hraised, hy, hlen⟩, hall⟩

theorem Line.length_eq (h : Line ws vs y) : (text vs).length = (text ws).length := by
  rw [← h.raised_eq, raised_length]

theorem Line.raised_ne_nil (h : Line ws vs y) : vs ≠ [] := by
  rintro rfl
  exact text_ne_nil h.ne_nil h.words (List.eq_nil_of_length_eq_zero h.length_eq.symm)

theorem Line.strlenAt_eq (h : Line ws vs y) (pre post : List UInt8) {p : Int}
    (hp : p = pre.length) :
    strlenAt (pre ++ (text ws ++ y :: 0 :: post)) p = some ((text ws).length + 1) := by
  have hnul : 0 ∉ text ws ++ [y] := by simp [text_no_nul h.words, h.closing.1.symm]
  have hassoc : text ws ++ y :: 0 :: post = (text ws ++ [y]) ++ 0 :: post := by simp
  rw [hassoc, strlenAt_spec hnul post hp, List.length_append, List.length_singleton]

theorem ptrAdd_of_lt (p : Int) {n : Nat} (hn : n < 2 ^ 63) : ptrAdd p n = p + n := by
  unfold ptrAdd
  rw [Int.bmod_eq_of_le (by omega) (by omega)]

/-- The words of a line when the whole text has been reversed. -/
theorem Line.mirrored (h : Line ws vs y) :
    (vs.map List.reverse).reverse ≠ [] ∧ (∀ r ∈ (vs.map List.reverse).reverse, Word r) ∧
      (text (vs.map List.reverse).reverse).length = (text ws).length := by
  refine ⟨by simpa using h.raised_ne_nil, fun r hr => ?_, ?_⟩
  · obtain ⟨v, hv, rfl⟩ := List.mem_map.mp (List.mem_reverse.mp hr)
    exact (h.raised_words v hv).reverse
  · rw [← text_reverse, List.length_reverse, h.length_eq]

/-- The first half of `reverse_string`. -/
theorem Line.first_pass (h : Line ws vs y) (pre post : List UInt8) {p : Int}
    (hp : p = pre.length) :
    reverse_interval (pre ++ (text ws ++ y :: 0 :: post)) p
      (ptrAdd p (size_sub ((text ws).length + 1) 1) - 1) true =
        some (pre ++ (text (vs.map List.reverse).reverse ++ y :: 0 :: post)) := by
  have hlen := h.length_lt
  have hsub : size_sub ((text ws).length + 1) 1 = (text ws).length :=
    size_sub_of_le (by omega) (by omega)
  rw [hsub, ptrAdd_of_lt p (Nat.lt_of_succ_lt hlen),
    reverse_interval_spec true pre _ _ (text_ne_nil h.ne_nil h.words) (by omega) hp (by omega),
    h.raised_eq, text_reverse]

theorem reverse_string_spec (h : Line ws vs y) (pre post : List UInt8) {p : Int}
    (hp : p = pre.length) :
    reverse_string (pre ++ (text ws ++ y :: 0 :: post)) p =
      some (pre ++ (turned vs ++ y :: 0 :: post)) := by
  have hlen := h.length_lt
  obtain ⟨hrsne, hrs, hrslen⟩ := h.mirrored
  have hback : ((vs.map List.reverse).reverse.map List.reverse).reverse = vs := by
    simp [List.map_reverse]
  have hsecond := second_pass h.closing hrsne hrs (by omega) pre post hp
    (show p + ((text ws).length + 1 : Nat) - 1 = _ by omega)
  rw [hback] at hsecond
  unfold reverse_string
  simp only [h.strlenAt_eq pre post hp, h.first_pass pre post hp, ptrAdd_of_lt p hlen,
    Option.bind_eq_bind, Option.bind_some]
  exact hsecond

end KernelBasecamp.Procfs
