/-
  Run-length tokens over an arbitrary alphabet.

  A token `(n, a)` stands for `n` copies of `a`. `expand` reads a token list back to text.
  `packFrom M n a` is the greedy packer: it holds one pending token `(n, a)`, lets it grow to
  at most `M`, and emits it when the symbol changes or the count is full.

  Proved:
  * `expand_packFrom`: packing loses nothing.
  * `canonical_packFrom`: the packer's output is `Canonical M` (counts in `1..M`, and a token
    followed by one of the same symbol is full).
  * `pack_expand`: a canonical token list is the packing of its own expansion.
  * `pack_length_le`: no token list with counts up to `M` is shorter than the packing of its
    expansion.
  * `pack_length_eq`: the packing spends one token for each `M` symbols begun of a maximal run.
-/
import Mathlib

namespace KernelBasecamp.Lib.RunLength

universe u

variable {α : Type u}

/-- The text a token list stands for. -/
def expand (ts : List (Nat × α)) : List α :=
  ts.flatMap fun t => List.replicate t.1 t.2

@[simp] theorem expand_nil : expand ([] : List (Nat × α)) = [] := rfl

@[simp] theorem expand_cons (n : Nat) (a : α) (ts : List (Nat × α)) :
    expand ((n, a) :: ts) = List.replicate n a ++ expand ts := rfl

/-- Counts in `1..M`; a token followed by one of the same symbol has the full count `M`. -/
structure Canonical (M : Nat) (ts : List (Nat × α)) : Prop where
  pos : ∀ t ∈ ts, 1 ≤ t.1
  le : ∀ t ∈ ts, t.1 ≤ M
  full : ts.IsChain fun t u => t.2 = u.2 → t.1 = M

theorem Canonical.tail {M : Nat} {t : Nat × α} {ts : List (Nat × α)}
    (h : Canonical M (t :: ts)) : Canonical M ts :=
  ⟨fun u hu => h.pos u (List.mem_cons_of_mem t hu),
    fun u hu => h.le u (List.mem_cons_of_mem t hu), h.full.tail⟩

theorem head?_expand {M : Nat} {t : Nat × α} {ts : List (Nat × α)}
    (h : Canonical M (t :: ts)) : (expand (t :: ts)).head? = some t.2 := by
  obtain ⟨n, a⟩ := t
  have hn : 1 ≤ n := h.pos (n, a) (by simp)
  obtain ⟨k, rfl⟩ : ∃ k, n = k + 1 := ⟨n - 1, by omega⟩
  rfl

section Pack

variable [DecidableEq α]

/-- The greedy packer with the pending token `(n, a)`. -/
def packFrom (M n : Nat) (a : α) : List α → List (Nat × α)
  | [] => [(n, a)]
  | b :: bs =>
      if b = a ∧ n < M then packFrom M (n + 1) a bs else (n, a) :: packFrom M 1 b bs

/-- The packer on a whole text. -/
def pack (M : Nat) : List α → List (Nat × α)
  | [] => []
  | a :: as => packFrom M 1 a as

theorem expand_packFrom (M n : Nat) (a : α) (bs : List α) :
    expand (packFrom M n a bs) = List.replicate n a ++ bs := by
  induction bs generalizing n a with
  | nil => simp [packFrom]
  | cons b bs ih =>
      rw [packFrom]
      split
      · next h => rw [ih, h.1, List.replicate_succ', List.append_assoc]; rfl
      · rw [expand_cons, ih]; rfl

theorem expand_pack (M : Nat) (as : List α) : expand (pack M as) = as := by
  cases as with
  | nil => rfl
  | cons a as => rw [pack, expand_packFrom]; rfl

/-- The first token out of the packer carries the pending symbol. -/
theorem packFrom_head (M n : Nat) (a : α) (bs : List α) :
    ∃ m ts, packFrom M n a bs = (m, a) :: ts := by
  induction bs generalizing n with
  | nil => exact ⟨n, [], rfl⟩
  | cons b bs ih =>
      rw [packFrom]
      split
      · exact ih (n + 1)
      · exact ⟨n, _, rfl⟩

theorem packFrom_ne_nil (M n : Nat) (a : α) (bs : List α) : packFrom M n a bs ≠ [] := by
  obtain ⟨m, ts, h⟩ := packFrom_head M n a bs
  rw [h]
  exact List.cons_ne_nil _ _

theorem canonical_packFrom {M n : Nat} (hn : 1 ≤ n) (hM : n ≤ M) (a : α) (bs : List α) :
    Canonical M (packFrom M n a bs) := by
  induction bs generalizing n a with
  | nil => exact ⟨by simpa [packFrom] using hn, by simpa [packFrom] using hM, .singleton _⟩
  | cons b bs ih =>
      rw [packFrom]
      split
      · next h => exact ih (by omega) h.2 a
      · next h =>
          have hrest : Canonical M (packFrom M 1 b bs) := ih (Nat.le_refl 1) (by omega) b
          refine ⟨?_, ?_, ?_⟩
          · intro t ht
            rcases List.mem_cons.mp ht with rfl | ht
            · exact hn
            · exact hrest.pos t ht
          · intro t ht
            rcases List.mem_cons.mp ht with rfl | ht
            · exact hM
            · exact hrest.le t ht
          · -- the packer closed `(n, a)` because `b ≠ a` or because the count is full
            obtain ⟨m, ts, hhead⟩ := packFrom_head M 1 b bs
            have hchain := hrest.full
            rw [hhead] at hchain ⊢
            refine List.isChain_cons_cons.mpr ⟨?_, hchain⟩
            intro hab
            have : ¬ n < M := fun hlt => h ⟨hab.symm, hlt⟩
            show n = M
            omega

theorem canonical_pack {M : Nat} (hM : 1 ≤ M) (as : List α) : Canonical M (pack M as) := by
  cases as with
  | nil => exact ⟨by simp [pack], by simp [pack], .nil⟩
  | cons a as => exact canonical_packFrom (Nat.le_refl 1) hM a as

/-- The pending token swallows copies of its own symbol while there is room. -/
theorem packFrom_replicate {M n : Nat} (k : Nat) (h : n + k ≤ M) (a : α) (bs : List α) :
    packFrom M n a (List.replicate k a ++ bs) = packFrom M (n + k) a bs := by
  induction k generalizing n with
  | zero => rfl
  | succ k ih =>
      rw [List.replicate_succ, List.cons_append, packFrom, if_pos ⟨rfl, by omega⟩,
        ih (by omega)]
      congr 1
      omega

/-- A non-empty run of one symbol, packed from nothing, is the pending token. -/
theorem pack_replicate {M n : Nat} (hn : 1 ≤ n) (hM : n ≤ M) (a : α) (bs : List α) :
    pack M (List.replicate n a ++ bs) = packFrom M n a bs := by
  obtain ⟨k, rfl⟩ : ∃ k, n = k + 1 := ⟨n - 1, by omega⟩
  rw [List.replicate_succ, List.cons_append, pack, packFrom_replicate k (by omega),
    Nat.add_comm 1 k]

/-- A pending token that cannot grow is emitted, and packing starts afresh. -/
theorem packFrom_close {M n : Nat} {a : α} {bs : List α}
    (h : ∀ b ∈ bs.head?, b = a → M ≤ n) : packFrom M n a bs = (n, a) :: pack M bs := by
  cases bs with
  | nil => rfl
  | cons b bs =>
      rw [packFrom, if_neg, pack]
      rintro ⟨hba, hlt⟩
      have := h b rfl hba
      omega

/-- A canonical token list is the packing of its own expansion. -/
theorem pack_expand {M : Nat} {ts : List (Nat × α)} (h : Canonical M ts) :
    pack M (expand ts) = ts := by
  induction ts with
  | nil => rfl
  | cons t ts ih =>
      obtain ⟨n, a⟩ := t
      rw [expand_cons, pack_replicate (h.pos (n, a) (by simp)) (h.le (n, a) (by simp)),
        packFrom_close ?_, ih h.tail]
      -- the next token either carries another symbol or follows a full one
      cases ts with
      | nil => simp
      | cons u ts =>
          rw [head?_expand h.tail]
          intro b hb hba
          have hfull : a = u.2 → n = M := (List.isChain_cons_cons.mp h.full).1
          have : n = M := hfull (by rw [← hba]; simpa using hb.symm)
          omega

/-! ## The packing is shortest -/

/-- A larger pending count costs at most one more token, and never saves one. -/
theorem packFrom_length_mono {M m n : Nat} (hm : 1 ≤ m) (hmn : m ≤ n) (hn : n ≤ M) (a : α)
    (bs : List α) :
    (packFrom M m a bs).length ≤ (packFrom M n a bs).length ∧
      (packFrom M n a bs).length ≤ (packFrom M m a bs).length + 1 := by
  induction bs generalizing m n with
  | nil => exact ⟨Nat.le_refl 1, Nat.le_succ 1⟩
  | cons b bs ih =>
      rw [packFrom, packFrom]
      by_cases hb : b = a
      · subst hb
        by_cases hfull : n < M
        · rw [if_pos ⟨rfl, by omega⟩, if_pos ⟨rfl, hfull⟩]
          exact ih (by omega) (by omega) hfull
        · rw [if_neg fun h : b = b ∧ n < M => hfull h.2]
          by_cases hgrow : m < M
          · -- the full token is closed, the other one goes on
            have hone := ih (Nat.le_refl 1) (show 1 ≤ m + 1 by omega) hgrow
            rw [if_pos ⟨rfl, hgrow⟩, List.length_cons]
            omega
          · rw [if_neg fun h : b = b ∧ m < M => hgrow h.2, List.length_cons, List.length_cons]
            omega
      · rw [if_neg fun h : b = a ∧ m < M => hb h.1, if_neg fun h : b = a ∧ n < M => hb h.1,
          List.length_cons, List.length_cons]
        omega

/-- One more token in front of a text costs at most one more token. -/
theorem pack_replicate_length_le {M n : Nat} (hn : n ≤ M) (a : α) (bs : List α) :
    (pack M (List.replicate n a ++ bs)).length ≤ (pack M bs).length + 1 := by
  rcases Nat.eq_zero_or_pos n with rfl | hpos
  · exact Nat.le_succ _
  · rw [pack_replicate hpos hn]
    cases bs with
    | nil => exact Nat.le_refl 1
    | cons b bs =>
        by_cases hgrow : b = a ∧ n < M
        · obtain ⟨rfl, hlt⟩ := hgrow
          rw [packFrom, if_pos ⟨rfl, hlt⟩, pack]
          exact (packFrom_length_mono (Nat.le_refl 1) (Nat.le_add_left 1 n) hlt b bs).2
        · rw [packFrom, if_neg hgrow, pack]
          exact Nat.le_refl _

/-- No token list with counts up to `M` is shorter than the packing of its expansion. -/
theorem pack_length_le {M : Nat} {ts : List (Nat × α)} (h : ∀ t ∈ ts, t.1 ≤ M) :
    (pack M (expand ts)).length ≤ ts.length := by
  induction ts with
  | nil => exact Nat.le_refl 0
  | cons t ts ih =>
      obtain ⟨n, a⟩ := t
      have hrest := ih fun u hu => h u (List.mem_cons_of_mem _ hu)
      have hn : n ≤ M := h (n, a) List.mem_cons_self
      have hfirst := pack_replicate_length_le hn a (expand ts)
      rw [expand_cons, List.length_cons]
      omega

/-- The maximal runs of equal symbols. -/
def runs (as : List α) : List (List α) := as.splitBy (· == ·)

/-- The tokens that the maximal runs of a text need with counts up to `M`. -/
def tokens (M : Nat) (as : List α) : Nat := ((runs as).map fun r => (r.length + M - 1) / M).sum

theorem packFrom_run_length {M m : Nat} (hm : 1 ≤ m) (hM : m ≤ M) (k : Nat) {a : α} {bs : List α}
    (hbs : ∀ b ∈ bs.head?, b ≠ a) :
    (packFrom M m a (List.replicate k a ++ bs)).length =
      (m + k + M - 1) / M + (pack M bs).length := by
  induction k generalizing m with
  | zero =>
      have hone : (m + 0 + M - 1) / M = 1 := Nat.div_eq_of_lt_le (by omega) (by omega)
      rw [List.replicate_zero, List.nil_append, hone,
        packFrom_close fun b hb hba => absurd hba (hbs b hb), List.length_cons, Nat.add_comm]
  | succ k ih =>
      rw [List.replicate_succ, List.cons_append, packFrom]
      by_cases hgrow : m < M
      · rw [if_pos ⟨rfl, hgrow⟩, ih (by omega) hgrow]
        congr 2
        omega
      · have hfull : m = M := by omega
        have hdiv : (m + (k + 1) + M - 1) / M = (1 + k + M - 1) / M + 1 := by
          rw [show m + (k + 1) + M - 1 = 1 + k + M - 1 + M by omega,
            Nat.add_div_right _ (by omega)]
        rw [if_neg fun h : a = a ∧ m < M => hgrow h.2, List.length_cons,
          ih (Nat.le_refl 1) (by omega), hdiv]
        omega

theorem run_eq_replicate {a : α} {as : List α}
    (h : (a :: as).IsChain fun a b => (a == b) = true) : as = List.replicate as.length a := by
  have heq := List.isChain_eq_iff_eq_replicate.mp (h.imp fun a b hab => eq_of_beq hab) a rfl
  rw [List.length_cons, List.replicate_succ] at heq
  exact (List.cons.inj heq).2

/-- The packing of a list of maximal runs, one after another. -/
theorem pack_runs_length {M : Nat} (hM : 1 ≤ M) {rs : List (List α)} (hne : [] ∉ rs)
    (heq : ∀ r ∈ rs, r.IsChain fun a b => (a == b) = true)
    (hdiffer : rs.IsChain fun r s => ∃ hr hs, (r.getLast hr == s.head hs) = false) :
    (pack M rs.flatten).length = (rs.map fun r => (r.length + M - 1) / M).sum := by
  induction rs with
  | nil => rfl
  | cons r rs ih =>
      obtain ⟨hr, hrs⟩ := List.ne_and_not_mem_of_not_mem_cons hne
      have hrest := ih hrs (fun r hr => heq r (List.mem_cons_of_mem _ hr)) hdiffer.tail
      obtain ⟨a, as, rfl⟩ := List.exists_cons_of_ne_nil hr.symm
      have hrun := run_eq_replicate (heq _ List.mem_cons_self)
      have hnext : ∀ b ∈ rs.flatten.head?, b ≠ a := by
        cases rs with
        | nil => simp
        | cons s rs =>
            obtain ⟨hlast, hs, hne⟩ := (List.isChain_cons_cons.mp hdiffer).1
            obtain ⟨b, bs, rfl⟩ := List.exists_cons_of_ne_nil hs
            have hall : ∀ x ∈ a :: as, x = a := by
              intro x hx
              rw [hrun, ← List.replicate_succ] at hx
              exact List.eq_of_mem_replicate hx
            rintro _ ⟨⟩
            rw [hall _ (List.getLast_mem hlast)] at hne
            exact fun hba => by simp [hba] at hne
      rw [List.flatten_cons, List.map_cons, List.sum_cons, ← hrest, List.cons_append, pack]
      conv_lhs => rw [hrun]
      rw [packFrom_run_length (Nat.le_refl 1) hM as.length hnext, List.length_cons,
        Nat.add_comm 1]

/-- The packing spends one token for each `M` symbols begun of a maximal run. -/
theorem pack_length_eq {M : Nat} (hM : 1 ≤ M) (as : List α) :
    (pack M as).length = tokens M as := by
  have hpack := pack_runs_length hM (List.nil_notMem_splitBy (· == ·) as)
    (fun r hr => List.isChain_of_mem_splitBy hr) (List.isChain_getLast_head_splitBy (· == ·) as)
  rwa [List.flatten_splitBy] at hpack

/-! ## Rises -/

/-- How often `a` comes after something else, `prev` being what comes before the text. -/
def rises (a : α) : α → List α → Nat
  | _, [] => 0
  | prev, b :: bs => (if b = a ∧ b ≠ prev then 1 else 0) + rises a b bs

theorem rises_replicate (a b : α) (k : Nat) (bs : List α) :
    rises a b (List.replicate k b ++ bs) = rises a b bs := by
  induction k with
  | zero => rfl
  | succ k ih =>
      rw [List.replicate_succ, List.cons_append, rises, ih, if_neg fun h => h.2 rfl, Nat.zero_add]

/-- After a maximal run comes something else. -/
theorem head?_next_run {b : α} {bs : List α} {rs : List (List α)}
    (hrun : bs = List.replicate bs.length b)
    (hdiffer : ((b :: bs) :: rs).IsChain fun r s => ∃ hr hs, (r.getLast hr == s.head hs) = false) :
    ∀ c ∈ rs.flatten.head?, c ≠ b := by
  cases rs with
  | nil => exact fun c hc => nomatch hc
  | cons s rs =>
      obtain ⟨hlast, hs, hne⟩ := (List.isChain_cons_cons.mp hdiffer).1
      obtain ⟨c, cs, rfl⟩ := List.exists_cons_of_ne_nil hs
      have hall : ∀ x ∈ b :: bs, x = b := by
        intro x hx
        rw [hrun, ← List.replicate_succ] at hx
        exact List.eq_of_mem_replicate hx
      have hend := hall _ (List.getLast_mem hlast)
      rintro _ ⟨⟩ rfl
      rw [hend] at hne
      exact absurd hne (by simp)

theorem rises_runs {a prev : α} {rs : List (List α)} (hne : [] ∉ rs)
    (heq : ∀ r ∈ rs, r.IsChain fun a b => (a == b) = true)
    (hdiffer : rs.IsChain fun r s => ∃ hr hs, (r.getLast hr == s.head hs) = false)
    (hprev : ∀ b ∈ rs.flatten.head?, b = a → prev ≠ a) :
    rises a prev rs.flatten = (rs.filter fun r => r.head? = some a).length := by
  induction rs generalizing prev with
  | nil => rfl
  | cons r rs ih =>
      obtain ⟨hr, hrs⟩ := List.ne_and_not_mem_of_not_mem_cons hne
      obtain ⟨b, bs, rfl⟩ := List.exists_cons_of_ne_nil hr.symm
      have hrun := run_eq_replicate (heq _ List.mem_cons_self)
      have hnext : ∀ c ∈ rs.flatten.head?, c = a → b ≠ a := by
        rintro c hc rfl
        exact (head?_next_run hrun hdiffer c hc).symm
      have hrest := ih hrs (fun r hr => heq r (List.mem_cons_of_mem _ hr)) hdiffer.tail hnext
      have hfirst : b = a → prev ≠ a := hprev b rfl
      rw [List.flatten_cons, List.cons_append, rises, hrun, rises_replicate, hrest,
        List.filter_cons]
      by_cases hb : b = a
      · have hnew : b ≠ prev := fun h => hfirst hb (h ▸ hb)
        rw [if_pos ⟨hb, hnew⟩, if_pos (by simp [hb]), List.length_cons, Nat.add_comm]
      · rw [if_neg fun h => hb h.1, if_neg (by simp [hb]), Nat.zero_add]

/-- `a` rises once for each maximal run of it. -/
theorem rises_eq_runs {a prev : α} (hprev : prev ≠ a) (as : List α) :
    rises a prev as = ((runs as).filter fun r => r.head? = some a).length := by
  have h := rises_runs (List.nil_notMem_splitBy (· == ·) as)
    (fun r hr => List.isChain_of_mem_splitBy hr) (List.isChain_getLast_head_splitBy (· == ·) as)
    (a := a) fun _ _ _ => hprev
  rwa [List.flatten_splitBy] at h

end Pack

end KernelBasecamp.Lib.RunLength
