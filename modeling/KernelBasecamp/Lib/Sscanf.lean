/-
  The conversions of the kernel's `sscanf` that read a word (`%s`) and a decimal integer
  (`%d`, `%lld`), on the memory from the scan position on.

  The outer option is the fault of running out of the memory. The inner one is the
  conversion's failure, at which `sscanf` stops: the position is at the terminator, or no
  number begins there. A number is scanned exactly; the caller wraps it to the width of the
  variable it is stored in. A word may be empty, at the end of a string of blanks. As in the
  kernel, white space is the six blanks of ASCII and the byte 160, and a sign is a minus.
-/
import Mathlib
import KernelBasecamp.Lib.CMem
import KernelBasecamp.Lib.Stretches

namespace KernelBasecamp.Lib.Sscanf

def isspace (c : UInt8) : Bool := 9 ≤ c && c ≤ 13 || c == 32 || c == 160

def isdigit (c : UInt8) : Bool := 48 ≤ c && c ≤ 57

def skip_spaces : List UInt8 → Option (List UInt8)
  | [] => none
  | c :: m => if isspace c then skip_spaces m else some (c :: m)

/-- `%s`: the word, and the position behind it. -/
def scanWord (str : List UInt8) : Option (Option (List UInt8 × List UInt8)) := do
  let c ← str.head?
  if c = 0 then some none
  else
    let str ← skip_spaces str
    let word := str.takeWhile fun c => c != 0 && !isspace c
    let next := str.drop word.length
    if next = [] then none else some (some (word, next))

/-- The number that a list of digits denotes. -/
def digitsValue (digits : List UInt8) : Nat :=
  digits.foldl (fun n d => 10 * n + (d.toNat - 48)) 0

theorem digitsValue_concat (ds : List UInt8) (d : UInt8) :
    digitsValue (ds ++ [d]) = 10 * digitsValue ds + (d.toNat - 48) := List.foldl_concat ..

/-- `simple_strtoull(str, &next, 10)`. -/
def simple_strtoull (str : List UInt8) : Option (Nat × List UInt8) :=
  let digits := str.takeWhile isdigit
  let next := str.drop digits.length
  if next = [] then none else some (digitsValue digits, next)

/-- `%d`: the number, and the position behind it. -/
def scanInt (str : List UInt8) : Option (Option (Int × List UInt8)) := do
  let c ← str.head?
  if c = 0 then some none
  else
    let str ← skip_spaces str
    let negative := str.head? == some 45
    let digits := if negative then str.tail else str
    let digit ← digits.head?
    if isdigit digit then
      let (n, next) ← simple_strtoull digits
      some (some (if negative then -n else n, next))
    else some none

/-! ## What the conversions look at -/

theorem skip_spaces_eq (m : List UInt8) :
    skip_spaces m = if m.dropWhile isspace = [] then none else some (m.dropWhile isspace) := by
  induction m with
  | nil => rfl
  | cons c m ih =>
      rw [skip_spaces, List.dropWhile_cons]
      split
      · exact ih
      · exact (if_neg (List.cons_ne_nil c m)).symm

/-- A number has a minus. -/
def negative (str : List UInt8) : Bool := (str.dropWhile isspace).head? == some 45

/-- The digits of a number and what follows: the text behind white space and a minus. -/
def numeral (str : List UInt8) : List UInt8 :=
  if negative str then (str.dropWhile isspace).tail else str.dropWhile isspace

def signed (minus : Bool) (n : Nat) : Int := if minus then -n else n

/-- `%d` runs out of the memory when nothing but digits follows, and it converts a number when a
    digit comes first. -/
theorem scanInt_eq (str : List UInt8) :
    scanInt str =
      if (numeral str).all isdigit then none
      else if (numeral str).head?.any isdigit then
        some (some (signed (negative str) (digitsValue ((numeral str).takeWhile isdigit)),
          (numeral str).dropWhile isdigit))
      else some none := by
  unfold scanInt
  cases str with
  | nil => rfl
  | cons c m =>
      rw [List.head?_cons, Option.bind_eq_bind, Option.bind_some]
      split
      · next hc =>
          -- the terminator is no blank, no minus and no digit
          subst hc
          rfl
      · rw [skip_spaces_eq]
        unfold numeral negative
        generalize (c :: m).dropWhile isspace = t
        split
        · next ht =>
            subst ht
            rfl
        · rw [Option.bind_eq_bind, Option.bind_some]
          dsimp only
          generalize (t.head? == some 45) = minus
          generalize (if minus then t.tail else t) = digits
          cases digits with
          | nil => rfl
          | cons d ds =>
              rw [List.head?_cons, Option.bind_some, Option.any_some]
              by_cases hd : isdigit d = true
              · rw [if_pos hd, if_pos hd]
                unfold simple_strtoull
                dsimp only
                rw [drop_takeWhile_length]
                simp only [List.all_eq_true, ← List.dropWhile_eq_nil_iff]
                split <;> rfl
              · rw [if_neg hd, if_neg hd,
                  if_neg fun h => hd (List.all_eq_true.mp h d List.mem_cons_self)]

theorem scanInt_eq_none_iff {m : List UInt8} :
    scanInt m = none ↔ ∀ c ∈ numeral m, isdigit c := by
  rw [scanInt_eq]
  split
  · next h => exact iff_of_true rfl (List.all_eq_true.mp h)
  · next h =>
      refine iff_of_false ?_ (mt List.all_eq_true.mpr h)
      split <;> exact Option.some_ne_none _

/-- A conversion that ends. -/
theorem scanInt_of_stop {str : List UInt8} (h : ¬ ∀ c ∈ numeral str, isdigit c) :
    scanInt str = some (if (numeral str).head?.any isdigit then
      some (signed (negative str) (digitsValue ((numeral str).takeWhile isdigit)),
        (numeral str).dropWhile isdigit)
      else none) := by
  rw [scanInt_eq, if_neg (mt List.all_eq_true.mp h)]
  split <;> rfl

/-- White space skipped in advance makes no difference. -/
theorem numeral_dropWhile (t : List UInt8) :
    negative (t.dropWhile isspace) = negative t ∧ numeral (t.dropWhile isspace) = numeral t := by
  unfold numeral negative
  rw [List.dropWhile_idempotent]
  exact ⟨rfl, rfl⟩

theorem numeral_blank {b : UInt8} (hb : isspace b = true) (t : List UInt8) :
    negative (b :: t) = negative t ∧ numeral (b :: t) = numeral t := by
  unfold numeral negative
  rw [List.dropWhile_cons_of_pos hb]
  exact ⟨rfl, rfl⟩

/-- Text behind the white space continues the number. -/
theorem numeral_append {m : List UInt8} (h : m.dropWhile isspace ≠ []) (rest : List UInt8) :
    negative (m ++ rest) = negative m ∧ numeral (m ++ rest) = numeral m ++ rest := by
  have hnegative : negative (m ++ rest) = negative m := by
    unfold negative
    rw [dropWhile_append_of_stop h, List.head?_append_of_ne_nil _ h]
  refine ⟨hnegative, ?_⟩
  unfold numeral
  rw [hnegative, dropWhile_append_of_stop h]
  split
  · exact List.tail_append_of_ne_nil h
  · rfl

/-- A conversion that ends does not see what follows. -/
theorem scanInt_append {m : List UInt8} {r : Option (Int × List UInt8)}
    (h : scanInt m = some r) (rest : List UInt8) :
    scanInt (m ++ rest) = some (r.map fun x => (x.1, x.2 ++ rest)) := by
  have hstop : ¬ ∀ c ∈ numeral m, isdigit c := fun hall => by
    rw [scanInt_eq_none_iff.mpr hall] at h
    cases h
  have hnumeral : numeral m ≠ [] := fun hnil => hstop fun c hc => by
    rw [hnil] at hc
    cases hc
  have hspace : m.dropWhile isspace ≠ [] := fun hnil => hnumeral (by
    unfold numeral
    rw [hnil]
    split <;> rfl)
  have hdigits : (numeral m).dropWhile isdigit ≠ [] := fun hnil =>
    hstop (List.dropWhile_eq_nil_iff.mp hnil)
  obtain ⟨hminus, happend⟩ := numeral_append hspace rest
  have hstop' : ¬ ∀ c ∈ numeral (m ++ rest), isdigit c := fun hall => hstop fun c hc =>
    hall c (happend ▸ List.mem_append_left rest hc)
  rw [scanInt_of_stop hstop] at h
  obtain rfl := Option.some.inj h
  rw [scanInt_of_stop hstop', hminus, happend, takeWhile_append_of_stop hdigits,
    dropWhile_append_of_stop hdigits, List.head?_append_of_ne_nil _ hnumeral]
  split <;> rfl

/-- A digit is neither a blank nor a minus. -/
theorem not_isspace_of_isdigit {d : UInt8} (hd : isdigit d = true) :
    isspace d = false ∧ d ≠ 45 := by
  unfold isdigit at hd
  rw [Bool.and_eq_true, decide_eq_true_iff, decide_eq_true_iff, UInt8.le_iff_toNat_le,
    UInt8.le_iff_toNat_le] at hd
  have hlo : 48 ≤ d.toNat := hd.1
  have hhi : d.toNat ≤ 57 := hd.2
  have hne : ∀ b : UInt8, b.toNat < 48 ∨ 57 < b.toNat → d ≠ b := by
    rintro b hb rfl
    omega
  refine ⟨?_, hne 45 (by decide)⟩
  have hbig : ¬ d ≤ 13 := by
    rw [UInt8.le_iff_toNat_le]
    exact Nat.not_le_of_lt (Nat.lt_of_lt_of_le (by decide) hlo)
  unfold isspace
  rw [decide_eq_false hbig, beq_eq_false_iff_ne.mpr (hne 32 (by decide)),
    beq_eq_false_iff_ne.mpr (hne 160 (by decide)), Bool.and_false]
  rfl

/-- The same for text that does not begin with a blank or a minus. -/
theorem numeral_append_cons (m : List UInt8) {d : UInt8} (hd : isspace d = false ∧ d ≠ 45)
    (rest : List UInt8) :
    negative (m ++ d :: rest) = negative m ∧ numeral (m ++ d :: rest) = numeral m ++ d :: rest := by
  by_cases hspace : m.dropWhile isspace = []
  · -- only white space so far: the number begins here
    have hdrop : (m ++ d :: rest).dropWhile isspace = d :: rest := by
      rw [List.dropWhile_append, hspace, List.isEmpty_nil, if_pos rfl,
        List.dropWhile_cons_of_neg (by rw [hd.1]; exact Bool.false_ne_true)]
    have hnegative : negative (m ++ d :: rest) = false := by
      unfold negative
      rw [hdrop, List.head?_cons, beq_eq_false_iff_ne]
      exact fun h => hd.2 (Option.some.inj h)
    have hnone : negative m = false ∧ numeral m = [] := by
      unfold numeral negative
      rw [hspace]
      exact ⟨rfl, rfl⟩
    refine ⟨hnegative.trans hnone.1.symm, ?_⟩
    unfold numeral at hnone ⊢
    rw [hnegative, hdrop, hnone.2]
    rfl
  · exact numeral_append hspace _

/-- A number that is not at its end is continued by a digit. -/
theorem scanInt_continued {m : List UInt8} (hall : ∀ c ∈ numeral m, isdigit c) {d c : UInt8}
    (hd : isdigit d = true) (hc : isdigit c = false) (rest : List UInt8) :
    scanInt (m ++ d :: c :: rest) =
      some (some (signed (negative m) (10 * digitsValue (numeral m) + (d.toNat - 48)),
        c :: rest)) := by
  obtain ⟨hnegative, hnumeral⟩ := numeral_append_cons m (not_isspace_of_isdigit hd) (c :: rest)
  have hprefix : ∀ e ∈ numeral m ++ [d], isdigit e = true := by
    intro e he
    rcases List.mem_append.mp he with he | he
    · exact hall e he
    · rwa [List.mem_singleton.mp he]
  have hsplit : numeral m ++ d :: c :: rest = numeral m ++ [d] ++ c :: rest := by simp
  rw [hsplit] at hnumeral
  have hstop : ¬ ∀ e ∈ numeral (m ++ d :: c :: rest), isdigit e = true := fun h => by
    rw [hnumeral] at h
    rw [h c (List.mem_append_right _ List.mem_cons_self)] at hc
    cases hc
  have hfirst : (numeral m ++ [d] ++ c :: rest).head?.any isdigit = true := by
    cases hm : numeral m with
    | nil => exact hd
    | cons e es => exact hall e (hm ▸ List.mem_cons_self)
  rw [scanInt_of_stop hstop, hnegative, hnumeral, if_pos hfirst,
    takeWhile_append_cons hc, dropWhile_append_cons hc, List.takeWhile_eq_self_iff.mpr hprefix,
    List.dropWhile_eq_nil_iff.mpr hprefix, digitsValue_concat]
  rfl

/-! ## Terminated strings -/

/-- The first word of a string, and what follows it. -/
def word (t : List UInt8) : List UInt8 := (t.dropWhile isspace).takeWhile fun c => !isspace c

def behindWord (t : List UInt8) : List UInt8 := (t.dropWhile isspace).dropWhile fun c => !isspace c

theorem skip_spaces_string (t d : List UInt8) :
    skip_spaces (t ++ 0 :: d) = some (t.dropWhile isspace ++ 0 :: d) := by
  rw [skip_spaces_eq, dropWhile_append_cons (by decide), if_neg (by simp)]

theorem scanWord_string {t : List UInt8} (ht : 0 ∉ t) (d : List UInt8) :
    scanWord (t ++ 0 :: d) =
      if t = [] then some none else some (some (word t, behindWord t ++ 0 :: d)) := by
  cases t with
  | nil => rfl
  | cons c t =>
      have hc : c ≠ 0 := fun h => ht (h ▸ List.mem_cons_self)
      have hnul : ∀ e ∈ (c :: t).dropWhile isspace, e ≠ 0 := fun e he h =>
        ht (h ▸ (List.dropWhile_suffix isspace).subset he)
      have hsplit : (c :: t).dropWhile isspace = word (c :: t) ++ behindWord (c :: t) :=
        List.takeWhile_append_dropWhile.symm
      have hword : ((c :: t).dropWhile isspace ++ 0 :: d).takeWhile
          (fun e => e != 0 && !isspace e) = word (c :: t) := by
        rw [takeWhile_append_cons (by decide)]
        refine takeWhile_congr_left fun e he => ?_
        rw [bne_iff_ne.mpr (hnul e he), Bool.true_and]
      have hnext : ((c :: t).dropWhile isspace ++ 0 :: d).drop (word (c :: t)).length =
          behindWord (c :: t) ++ 0 :: d := by
        rw [hsplit, List.append_assoc]
        exact List.drop_left
      have hmore : behindWord (c :: t) ++ 0 :: d ≠ [] := by simp
      unfold scanWord
      rw [List.cons_append, List.head?_cons, Option.bind_eq_bind, Option.bind_some, if_neg hc,
        ← List.cons_append, skip_spaces_string, Option.bind_eq_bind, Option.bind_some, hword,
        if_neg (List.cons_ne_nil c t)]
      dsimp only
      rw [hnext, if_neg hmore]

/-- On a string the conversion ends at the terminator at the latest. -/
theorem scanInt_string (t d : List UInt8) :
    scanInt (t ++ 0 :: d) =
      some (if (numeral t).head?.any isdigit then
        some (signed (negative t) (digitsValue ((numeral t).takeWhile isdigit)),
          (numeral t).dropWhile isdigit ++ 0 :: d)
      else none) := by
  obtain ⟨hnegative, hnumeral⟩ := numeral_append_cons t (d := 0) (by decide) d
  have hstop : ¬ ∀ e ∈ numeral (t ++ 0 :: d), isdigit e = true := fun h => by
    have h0 := h 0 (hnumeral ▸ List.mem_append_right _ List.mem_cons_self)
    revert h0
    decide
  have hfirst : (numeral t ++ 0 :: d).head?.any isdigit = (numeral t).head?.any isdigit := by
    cases numeral t <;> rfl
  rw [scanInt_of_stop hstop, hnegative, hnumeral, hfirst, takeWhile_append_cons (by decide),
    dropWhile_append_cons (by decide)]

end KernelBasecamp.Lib.Sscanf
