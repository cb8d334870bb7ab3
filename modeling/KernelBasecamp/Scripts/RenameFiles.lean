/-
  The script rename_old_files.sh of exercise02: every old file of a directory gets a `~` in
  front of its name.

  `find` prints the names of the files that are older than thirty days, one a line, in an order
  of its own. The shell splits the text into words and renames word by word. The directory is
  the one named by the argument, it holds regular files with one name each, and a file is known
  by its inode. The old files have `Plain` names, which reach `mv` as they are.

  * `rename_old_files_keeps_iff`: when no file is lost.
-/
import KernelBasecamp.Lib.Renaming
import KernelBasecamp.Scripts.Words

namespace KernelBasecamp.Scripts

open Lib

/-- The names of a directory and the inodes they stand for. -/
abbrev Directory := List UInt8 → Option Nat

/-- `~$f` -/
def tilde (f : List UInt8) : List UInt8 := 126 :: f

/-- `mv` fails where there is no such file, and replaces a file that has the new name. -/
def mv (d : Directory) (f g : List UInt8) : Directory := move d f g

/-- The script, when `find` comes to the names of `old`. That the shell drops the newlines at
    the end of the text makes no difference to its words. -/
def rename_old_files (d : Directory) (old : List (List UInt8)) : Directory :=
  (words (old.flatMap fun f => f ++ [10])).foldl (fun d f => mv d f (tilde f)) d

theorem tilde_injective : Function.Injective tilde := fun _ _ h => (List.cons.inj h).2

theorem tilde_ne (f : List UInt8) : tilde f ≠ f := fun h => by
  have hlength := congrArg List.length h
  simp [tilde] at hlength

/-- Every file of the directory is there afterwards, under its name with a `~` if it was old and
    under its own if not, exactly when each name `~f` that is taken belongs to an old file that
    `find` has printed before `f`. Otherwise some file is lost. -/
theorem rename_old_files_keeps_iff {d : Directory} {old : List (List UInt8)}
    (hplain : ∀ f ∈ old, Plain f) (h : Renamable d old) :
    ((∀ f i, d f = some i → (f ∈ old → rename_old_files d old (tilde f) = some i) ∧
      (f ∉ old → rename_old_files d old f = some i)) ↔ Clears tilde d [] old) ∧
    (¬ Clears tilde d [] old → ∃ f i, d f = some i ∧ ∀ g, rename_old_files d old g ≠ some i) := by
  have hmoves : rename_old_files d old = moves tilde d old := by
    unfold rename_old_files
    rw [words_lines hplain]
    rfl
  rw [hmoves]
  exact moves_keep_iff tilde_injective tilde_ne h

/-- The files "a" and "~a". -/
def twoFiles : Directory := fun f =>
  if f = [97] then some 1 else if f = [126, 97] then some 2 else none

/-- Both are old, and `find` comes to "~a" first. -/
theorem rename_old_files_keeps_two :
    rename_old_files twoFiles [[126, 97], [97]] [126, 97] = some 1 := by
  have hfiles : Renamable twoFiles [[126, 97], [97]] := by
    refine ⟨by decide, by decide, fun f g i hf hg => ?_⟩
    unfold twoFiles at hf hg
    grind
  have hkept := (rename_old_files_keeps_iff (by decide +kernel) hfiles).1.mpr (by decide)
  exact (hkept [97] 1 rfl).1 (by decide)

end KernelBasecamp.Scripts
