/-
  `reverse_string` on sentences: the order of the words, and the early return.

  A sentence is a text of non-empty words, one newline and a NUL; as a C object it has fewer
  than `2 ^ 63` bytes. On ASCII a second `toupper` changes nothing, so the byte in the middle of
  the text, which gets two, is no exception (`Raised.eq_toupper`).

  * `reverse_sentence`: two or more words come back upper-cased and in reverse order.
  * `early_return_iff`: the early return for a single word leaves it reversed, where the word
    loop would turn it back; the two agree on palindromes only.
-/
import Mathlib
import KernelBasecamp.Procfs.Reverse

namespace KernelBasecamp.Procfs

open Lib Lib.CMem

/-! ## ASCII -/

theorem toupper_toupper {c : UInt8} (h : c < 128) : toupper (toupper c) = toupper c := by
  unfold toupper
  grind

theorem Raised.eq_toupper {c' c : UInt8} (h : Raised c' c) (hc : c < 128) : c' = toupper c := by
  rcases h with rfl | rfl
  · rfl
  · exact toupper_toupper hc

theorem eq_map_of_forall₂ {α β : Type} {R : β → α → Prop} {f : α → β} {bs : List β} {as : List α}
    (h : List.Forall₂ R bs as) (hf : ∀ a ∈ as, ∀ b, R b a → b = f a) : bs = as.map f := by
  induction h with
  | nil => rfl
  | cons hr _ ih =>
      rw [List.map_cons, hf _ List.mem_cons_self _ hr,
        ih fun a ha => hf a (List.mem_cons_of_mem _ ha)]

theorem raised_words_ascii {ws vs : List (List UInt8)}
    (h : List.Forall₂ (List.Forall₂ Raised) vs ws) (hascii : ∀ w ∈ ws, ∀ c ∈ w, c < 128) :
    vs = ws.map (List.map toupper) :=
  eq_map_of_forall₂ h fun w hw _ hv =>
    eq_map_of_forall₂ hv fun c hc _ hr => hr.eq_toupper (hascii w hw c hc)

/-! ## Two or more words -/

/-- The words come out upper-cased and in reverse order; the bytes around the string stay. -/
theorem reverse_sentence {ws : List (List UInt8)} (hcount : 2 ≤ ws.length)
    (hws : ∀ w ∈ ws, Word w) (hascii : ∀ w ∈ ws, ∀ c ∈ w, c < 128)
    (hlen : (text ws).length + 1 < 2 ^ 63) (pre post : List UInt8) :
    reverse_string (pre ++ (text ws ++ 10 :: 0 :: post)) pre.length =
      some (pre ++ (text (ws.map (List.map toupper)).reverse ++ 10 :: 0 :: post)) := by
  have hne : ws ≠ [] := List.ne_nil_of_length_pos (by omega)
  obtain ⟨vs, hline, hall⟩ := line_of_words hne hws (y := 10) (by decide) hlen
  have hone : vs.length ≠ 1 := by
    rw [hall.length_eq]
    omega
  rw [reverse_string_spec hline pre post rfl, turned_of_ne_one hone,
    raised_words_ascii hall hascii]

/-- "my pal" gives "PAL MY". -/
theorem reverse_sentence_pal :
    reverse_string ([7] ++ ([109, 121, 32, 112, 97, 108, 10, 0, 7])) 1 =
      some ([7] ++ ([80, 65, 76, 32, 77, 89, 10, 0, 7])) := by
  have hws : ∀ w ∈ ([[109, 121], [112, 97, 108]] : List (List UInt8)), Word w := by decide
  exact reverse_sentence (by decide) hws (by decide +kernel) (by decide) [7] [7]

/-! ## The early return -/

/-- `reverse_string` without `if (!we) return`: the word loop always runs. -/
def reverse_string_looped (m : List UInt8) (str : Int) : Option (List UInt8) := do
  let n ← strlenAt m str
  let len := size_sub n 1
  let se := ptrAdd str n - 1
  let m ← reverse_interval m str (ptrAdd str len - 1) true
  wordLoop m se str

theorem reverse_string_looped_spec {ws vs : List (List UInt8)} {y : UInt8} (h : Line ws vs y)
    (pre post : List UInt8) {p : Int} (hp : p = pre.length) :
    reverse_string_looped (pre ++ (text ws ++ y :: 0 :: post)) p =
      some (pre ++ (text vs.reverse ++ y :: 0 :: post)) := by
  have hlen := h.length_lt
  obtain ⟨hrsne, hrs, hrslen⟩ := h.mirrored
  have hback : (vs.map List.reverse).reverse.map List.reverse = vs.reverse := by
    simp [List.map_reverse]
  have hloop := wordLoop_spec hrsne hrs h.closing (by omega) pre post hp
    (show p + ((text ws).length + 1 : Nat) - 1 = _ by omega)
  rw [hback] at hloop
  unfold reverse_string_looped
  simp only [h.strlenAt_eq pre post hp, h.first_pass pre post hp, ptrAdd_of_lt p hlen,
    Option.bind_eq_bind, Option.bind_some]
  exact hloop

theorem palindrome_cons_append {α : Type} {x z : α} {l : List α} :
    (x :: (l ++ [z])).Palindrome ↔ x = z ∧ l.Palindrome := by
  rw [List.Palindrome.iff_reverse_eq, List.Palindrome.iff_reverse_eq, List.reverse_cons,
    List.reverse_append, List.reverse_singleton, List.singleton_append, List.cons_append,
    List.cons.injEq]
  constructor
  · rintro ⟨rfl, h⟩
    exact ⟨rfl, List.append_cancel_right h⟩
  · rintro ⟨rfl, h⟩
    exact ⟨rfl, by rw [h]⟩

/-- The byte in the middle is its own mirror image, so the second `toupper` does not count. -/
theorem raised_palindrome (w : List UInt8) :
    (raised true w).Palindrome ↔ (w.map toupper).Palindrome := by
  induction w using List.bidirectionalRec with
  | nil => exact Iff.rfl
  | singleton x => exact iff_of_true (.singleton _) (.singleton _)
  | cons_append x mid z ih =>
      rw [raised_cons_append, List.map_cons, List.map_append, List.map_singleton,
        palindrome_cons_append, palindrome_cons_append, ih, cased_true, cased_true]

/-- The early return and the word loop agree if and only if the line has more than one word, or
    one that is a palindrome in capitals. The loop upper-cases the words, with their letters in
    the old order, and reverses the order of the words. -/
theorem early_return_iff {ws : List (List UInt8)} (hne : ws ≠ []) (hws : ∀ w ∈ ws, Word w)
    (hlen : (text ws).length + 1 < 2 ^ 63) (pre post : List UInt8) :
    (reverse_string (pre ++ (text ws ++ 10 :: 0 :: post)) pre.length =
        reverse_string_looped (pre ++ (text ws ++ 10 :: 0 :: post)) pre.length ↔
      ∀ w, ws = [w] → (w.map toupper).Palindrome) ∧
    (reverse_string (pre ++ (text ws ++ 10 :: 0 :: post)) pre.length).isSome ∧
    ∃ vs, List.Forall₂ (List.Forall₂ Raised) vs ws ∧
      reverse_string_looped (pre ++ (text ws ++ 10 :: 0 :: post)) pre.length =
        some (pre ++ (text vs.reverse ++ 10 :: 0 :: post)) := by
  obtain ⟨vs, hline, hall⟩ := line_of_words hne hws (y := 10) (by decide) hlen
  have hspec := reverse_string_spec hline pre post rfl
  have hlooped := reverse_string_looped_spec hline pre post rfl
  refine ⟨?_, by rw [hspec]; rfl, vs, hall, hlooped⟩
  rw [hspec, hlooped, Option.some.injEq, List.append_cancel_left_eq, List.append_cancel_right_eq]
  by_cases hone : ws.length = 1
  · obtain ⟨w, rfl⟩ := List.length_eq_one_iff.mp hone
    obtain ⟨v, rfl⟩ := List.length_eq_one_iff.mp (hall.length_eq.trans rfl)
    have hv := hline.raised_eq
    rw [text_singleton, text_singleton] at hv
    rw [List.reverse_singleton, text_singleton]
    change v.reverse = v ↔ _
    rw [← List.Palindrome.iff_reverse_eq, ← hv, raised_palindrome]
    constructor
    · rintro h _ ⟨⟩
      exact h
    · exact fun h => h w rfl
  · refine iff_of_true (turned_of_ne_one (hall.length_eq ▸ hone)) ?_
    rintro w rfl
    exact absurd rfl hone

/-- "noon" reads the same either way. -/
theorem early_return_iff_noon :
    reverse_string [110, 111, 111, 110, 10, 0] 0 =
      reverse_string_looped [110, 111, 111, 110, 10, 0] 0 := by
  have hws : ∀ w ∈ ([[110, 111, 111, 110]] : List (List UInt8)), Word w := by decide
  refine (early_return_iff (by decide) hws (by decide) [] []).1.mpr ?_
  rintro w ⟨⟩
  decide

/-- "ab" is left as "BA" by the early return and as "AB" by the loop. -/
theorem lone_word :
    reverse_string [97, 98, 10, 0] 0 = some [66, 65, 10, 0] ∧
      reverse_string_looped [97, 98, 10, 0] 0 = some [65, 66, 10, 0] := by
  decide +kernel

end KernelBasecamp.Procfs
