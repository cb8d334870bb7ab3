/-
  Reading a text with `fgets`, read by read.

  A read ends behind a separator, or when the buffer is full. `fgetsAll size` are the reads of a
  file into a buffer with room for `size` elements. As long as no line is longer than that they
  are the lines of the text, the rest behind the last separator included (`fgetsAll_eq`).
-/
import Mathlib
import KernelBasecamp.Lib.Lines

namespace KernelBasecamp.Lib

universe u

variable {α : Type u} [DecidableEq α] (sep : α)

/-- A read has `got` so far and has room for `room` more. -/
def fgetsFrom (size room : Nat) (got : List α) : List α → List (List α)
  | [] => if got = [] then [] else [got]
  | a :: t =>
      if a = sep ∨ room ≤ 1 then (got ++ [a]) :: fgetsFrom size size [] t
      else fgetsFrom size (room - 1) (got ++ [a]) t

def fgetsAll (size : Nat) (t : List α) : List (List α) := fgetsFrom sep size size [] t

/-- The lines of a text, and what follows the last of them. -/
def textLines (t : List α) : List (List α) :=
  (cut sep t).1 ++ if (cut sep t).2 = [] then [] else [(cut sep t).2]

variable {sep} {size room : Nat}

/-- The rest of a line fits. -/
theorem fgetsFrom_line {body : List α} (hbody : sep ∉ body) (hroom : body.length < room)
    (got t : List α) :
    fgetsFrom sep size room got (body ++ sep :: t) =
      (got ++ body ++ [sep]) :: fgetsAll sep size t := by
  induction body generalizing room got with
  | nil =>
      rw [List.nil_append, List.append_nil, fgetsFrom, if_pos (.inl rfl)]
      rfl
  | cons a body ih =>
      obtain ⟨ha, hbody⟩ := List.ne_and_not_mem_of_not_mem_cons hbody
      rw [List.length_cons] at hroom
      have hgo : ¬ (a = sep ∨ room ≤ 1) := by
        rintro (heq | hle)
        · exact ha heq.symm
        · omega
      rw [List.cons_append, fgetsFrom, if_neg hgo, ih hbody (by omega), List.append_assoc got]
      rfl

/-- The end of the file, without a separator. -/
theorem fgetsFrom_rest {w : List α} (hw : sep ∉ w) (hroom : w.length ≤ room) (got : List α) :
    fgetsFrom sep size room got w = if got ++ w = [] then [] else [got ++ w] := by
  induction w generalizing room got with
  | nil => rw [List.append_nil, fgetsFrom]
  | cons a w ih =>
      obtain ⟨ha, hw⟩ := List.ne_and_not_mem_of_not_mem_cons hw
      rw [List.length_cons] at hroom
      have happ : got ++ a :: w = (got ++ [a]) ++ w := List.append_cons got a w
      have hne : (got ++ [a]) ++ w ≠ [] := by simp
      rw [fgetsFrom, happ, if_neg hne]
      by_cases hfull : room ≤ 1
      · -- the last element fills the buffer
        have hnil : w = [] := List.length_eq_zero_iff.mp (by omega)
        rw [if_pos (.inr hfull), hnil, fgetsFrom, if_pos rfl, List.append_nil]
      · have hgo : ¬ (a = sep ∨ room ≤ 1) := by
          rintro (heq | hle)
          · exact ha heq.symm
          · exact hfull hle
        rw [if_neg hgo, ih hw (by omega), if_neg hne]

theorem fgetsAll_lines {ls : List (List α)} (hls : ∀ l ∈ ls, IsLine sep l ∧ l.length ≤ size)
    (t : List α) : fgetsAll sep size (ls.flatten ++ t) = ls ++ fgetsAll sep size t := by
  induction ls with
  | nil => rfl
  | cons l ls ih =>
      obtain ⟨⟨body, hbody, rfl⟩, hlength⟩ := hls l List.mem_cons_self
      rw [List.length_append, List.length_singleton] at hlength
      have hflat : (((body ++ [sep]) :: ls).flatten ++ t) = body ++ sep :: (ls.flatten ++ t) := by
        simp
      unfold fgetsAll at ih ⊢
      rw [hflat, fgetsFrom_line hbody (by omega), List.nil_append]
      unfold fgetsAll
      rw [ih fun l' hl' => hls l' (List.mem_cons_of_mem _ hl')]
      rfl

/-- Lines that fit in the buffer are read one by one. -/
theorem fgetsAll_eq {t : List α} (h : ∀ l ∈ textLines sep t, l.length ≤ size) :
    fgetsAll sep size t = textLines sep t := by
  obtain ⟨hls, hw⟩ := cut_spec sep t
  unfold textLines at h ⊢
  have hfits : ∀ l ∈ (cut sep t).1, IsLine sep l ∧ l.length ≤ size := fun l hl =>
    ⟨hls l hl, h l (List.mem_append_left _ hl)⟩
  have hrest : (cut sep t).2.length ≤ size := by
    by_cases hnil : (cut sep t).2 = []
    · rw [hnil]
      exact Nat.zero_le _
    · refine h _ (List.mem_append_right _ ?_)
      rw [if_neg hnil]
      exact List.mem_singleton.mpr rfl
  have hread := fgetsAll_lines hfits (cut sep t).2
  rw [cut_eq] at hread
  rw [hread]
  congr 1
  exact fgetsFrom_rest hw hrest []

end KernelBasecamp.Lib
