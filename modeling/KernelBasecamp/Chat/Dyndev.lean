/-
  The chat module of task06 (dyndev.c): a log of messages in one buffer, a table of users, and
  one device per user that appends to the log and reads a view of it.

  Memory is explicit. `users` is the table as the 512 bytes it is, so that a long name runs on
  into the next row; `chat_buffer` is the allocation that the pointer of that name points to
  (`none` is the null pointer, `some []` what `kmalloc(0)` returns). A function returns `none`
  where the code touches memory outside of these, dereferences null, or where the environment
  cannot answer as assumed.

  What the code asks of others is an argument: how many bytes a user copy leaves uncopied, the
  number `kstrtoul_from_user` parsed, whether `kmalloc` succeeds. `left` of `dev_read` gives the
  answer of the `copy_to_user` to each offset of the user's buffer. The arguments `ppos`,
  `offset` and `file_p` are not looked at by the code, nor are the results of `device_create`
  and `printk`; they are left out, while the equally unused `count` of `dev_read` is kept.
-/
import KernelBasecamp.Lib.CString
import KernelBasecamp.Lib.Run

namespace KernelBasecamp.Chat

open Lib.CMem

def MAX_USERS : Nat := 16
def MAX_USER_NAME : Nat := 32
def DEFAULT_BUFFER_SIZE : Nat := 1024

structure State where
  users : List UInt8
  user_count : Nat
  chat_buffer : Option (List UInt8)
  chat_buffer_size : Nat
  bytes_read : Nat
  /-- the static variable of `proc_read_stat` -/
  sent : Nat
  deriving DecidableEq, Repr

/-- `users[index]`, from its first byte to the end of the table. -/
def State.user (s : State) (index : Nat) : List UInt8 := s.users.drop (MAX_USER_NAME * index)

/-- The bytes of a string literal, without the terminator. -/
def literal (str : String) : List UInt8 := str.toList.map Char.toUInt8

/-- `kmalloc(size, __GFP_ZERO)`. -/
def kmalloc (size : Nat) (ok : Bool) : Option (List UInt8) :=
  if size = 0 then some [] else if ok then some (List.replicate size 0) else none

/-! ## Loading -/

/-- The static data before `dev_init`. -/
def State.blank : State :=
  ⟨List.replicate (MAX_USERS * MAX_USER_NAME) 0, 0, none, DEFAULT_BUFFER_SIZE, 0, 0⟩

/-- `dev_init` when all registrations succeed. The result of `kmalloc` is not checked. -/
def dev_init (s : State) (ok : Bool) : Option State := do
  let chat_buffer := kmalloc s.chat_buffer_size ok
  let users ← strcpy s.users (MAX_USER_NAME * s.user_count) (literal "all" ++ [0])
  some { s with chat_buffer, users, user_count := s.user_count + 1 }

/-- The module as it is loaded. -/
def State.loaded : State where
  users := [97, 108, 108, 0] ++ List.replicate 508 0
  user_count := 1
  chat_buffer := some (List.replicate DEFAULT_BUFFER_SIZE 0)
  chat_buffer_size := DEFAULT_BUFFER_SIZE
  bytes_read := 0
  sent := 0

/-! ## `dev_read` -/

/-- `index == 0 || (memcmp(in, users[index], un_l) == 0 && in[un_l] == ':')`, where `m` is the
    buffer from `in` on. -/
def isMine (index : Nat) (user : List UInt8) (un_l : Nat) (m : List UInt8) : Option Bool :=
  if index = 0 then some true
  else do
    let r ← memcmp un_l m user
    if r = 0 then
      let c ← m[un_l]?
      some (c == 58)
    else some false

/-- The `if` of the loop for a line of `l` bytes: the new `out`, and the copy made, as an offset
    in the user's buffer and the bytes delivered there. -/
def copyLine (index : Nat) (user : List UInt8) (un_l left : Nat) (m : List UInt8) (l out : Nat) :
    Option (Nat × List (Nat × List UInt8)) := do
  let mine ← isMine index user un_l m
  if mine then
    let bytes ← copy_to_user m 0 l left
    some (out + l, [(out, bytes)])
  else some (out, [])

/-- `while (*in)`: the final `out` and the copies made. -/
def scan (index : Nat) (user : List UInt8) (un_l : Nat) (left : Nat → Nat) (m : List UInt8)
    (out : Nat) : Option (Nat × List (Nat × List UInt8)) :=
  match load m 0 with
  | none => none
  | some c =>
      if c = 0 then some (out, [])
      else
        match _hnext : strchr 10 m with
        | none => none
        -- `next` stays null: after this line `in` is null and the loop tests `*in`
        | some none => none
        | some (some k) =>
            (copyLine index user un_l (left out) m (k + 1) out).bind fun line =>
              (scan index user un_l left (m.drop (k + 1)) line.1).map fun rest =>
                (rest.1, line.2 ++ rest.2)
termination_by m.length
decreasing_by
  have hlt := strchr_lt _hnext
  rw [List.length_drop]
  omega

def dev_read (s : State) (index _count : Nat) (left : Nat → Nat) :
    Option (State × Nat × List (Nat × List UInt8)) := do
  let un_l ← strlen (s.user index)
  if s.bytes_read ≠ 0 then some ({ s with bytes_read := 0 }, 0, [])
  else
    let m ← s.chat_buffer
    let (out, copies) ← scan index (s.user index) un_l left m 0
    some ({ s with bytes_read := out }, out, copies)

/-! ## Writing -/

def dev_write (s : State) (index : Nat) (buf : List UInt8) (count left : Nat) :
    Option (State × Nat) :=
  if index = 0 then some (s, 0)
  else do
    let out ← s.chat_buffer
    let out ← strcat out (s.user index)
    let out ← strcat out (literal ": " ++ [0])
    let p ← strlen out
    let bytes ← copy_from_user buf count left
    let out ← storeBytes out p bytes
    some ({ s with chat_buffer := some out }, count - left)

def proc_write_add (s : State) (buffer : List UInt8) (length left : Nat) :
    Option (State × Nat) := do
  let user_name ← copy_from_user buffer length left
  let user_name ← store user_name (length - 1) 0
  let users ← strcpy s.users (MAX_USER_NAME * s.user_count) user_name
  some ({ s with users, user_count := s.user_count + 1 }, length - left)

/-- `parsed` is the number `kstrtoul_from_user` stored, or `none` for an error. -/
def proc_write_reset (s : State) (length : Nat) (parsed : Option UInt64) (ok : Bool) :
    State × Nat :=
  match parsed with
  | none => (s, 0)
  | some n =>
      if n ≠ 0 then
        ({ s with
          chat_buffer_size := (n * 1024).toNat
          chat_buffer := kmalloc (n * 1024).toNat ok }, length)
      else (s, length)

/-! ## `proc_read_stat` -/

/-- The text printed by `sprintf`. -/
def statText (chat_buffer_size used users : Nat) : List UInt8 :=
  literal ("Buffer size: " ++ chat_buffer_size.repr ++ "\nUsed: " ++ used.repr ++ "\nUsers: " ++
    users.repr ++ "\n")

def proc_read_stat (s : State) (left : Nat) : Option (State × Nat × List UInt8) :=
  if s.sent ≠ 0 then some ({ s with sent := 0 }, 0, [])
  else do
    let m ← s.chat_buffer
    let used ← strlen m
    let buf := statText s.chat_buffer_size used (size_sub s.user_count 1)
    let bytes ← copy_to_user buf 0 buf.length left
    some ({ s with sent := buf.length }, buf.length - left, bytes)

/-! ## Steps -/

/-- A call with the answers of its environment. The list of `read` has what is left uncopied
    at each offset of the user's buffer; a missing entry is 0. -/
inductive Act where
  | add (buffer : List UInt8) (length left : Nat)
  | write (index : Nat) (buf : List UInt8) (count left : Nat)
  | reset (length : Nat) (parsed : Option UInt64) (ok : Bool)
  | read (index count : Nat) (left : List Nat)
  | stat (left : Nat)
  deriving DecidableEq, Repr

def step (s : State) : Act → Option State
  | .add buffer length left => (proc_write_add s buffer length left).map Prod.fst
  | .write index buf count left => (dev_write s index buf count left).map Prod.fst
  | .reset length parsed ok => some (proc_write_reset s length parsed ok).1
  | .read index count left =>
      (dev_read s index count fun out => left.getD out 0).map Prod.fst
  | .stat left => (proc_read_stat s left).map Prod.fst

theorem dev_init_loaded : dev_init State.blank true = some State.loaded := by
  have hall : literal "all" = [97, 108, 108] := by decide
  have h0 : (0 : UInt8) ∉ [97, 108, 108] := by decide
  have hroom : 0 + 4 ≤ (List.replicate 512 (0 : UInt8)).length := by
    rw [List.length_replicate]
    decide
  have hrow : storeBytes (List.replicate 512 0) 0 [97, 108, 108, 0] =
      some State.loaded.users := by
    unfold storeBytes
    rw [List.length_cons, List.length_cons, List.length_cons, List.length_cons, List.length_nil,
      if_pos hroom, List.drop_replicate]
    rfl
  have husers : strcpy State.blank.users (MAX_USER_NAME * State.blank.user_count)
      (literal "all" ++ [0]) = some State.loaded.users := by
    rw [hall, strcpy_append h0]
    exact hrow
  unfold dev_init
  rw [husers]
  rfl

end KernelBasecamp.Chat
