/-
  The word-reversing procfs module of exercise10/part02 (rw.c).

  `mem` is the stretch of kernel memory that holds the buffer: `proc_buffer` is its offset, and
  what lies before and behind it is somebody else's. `reverse_string` runs on this memory with
  plain pointers, so that a scan or a swap that leaves the buffer is visible; leaving `mem`
  itself is a fault (`none`), and so is a loop that never ends, since each round touches one
  byte further. The `printk` lines and the arguments `file_p` and `offset`, which the code never
  looks at, are left out of the functions; a call carries the number of its file only to say
  that any client can make it.
-/
import KernelBasecamp.Lib.CMem

namespace KernelBasecamp.Procfs

open Lib.CMem

/-! ## Reversing -/

/-- `toupper` of the kernel's character table (Latin-1). -/
def toupper (c : UInt8) : UInt8 :=
  if (97 ≤ c ∧ c ≤ 122) ∨ (223 ≤ c ∧ c ≠ 247) then c - 32 else c

def swap_chars (m : List UInt8) (a b : Int) : Option (List UInt8) := do
  let t ← load m a
  let u ← load m b
  let m ← store m a u
  store m b t

/-- The body of the loop of `reverse_interval`. -/
def reverseStep (make_upper : Bool) (m : List UInt8) (a b : Int) : Option (List UInt8) := do
  let m ← swap_chars m a b
  if make_upper then
    let m ← store m a (toupper (← load m a))
    store m b (toupper (← load m b))
  else some m

theorem swap_chars_length {m m' : List UInt8} {a b : Int} (h : swap_chars m a b = some m') :
    m'.length = m.length ∧ 0 ≤ a ∧ a < m.length := by
  unfold swap_chars at h
  simp only [Option.bind_eq_bind, Option.bind_eq_some_iff] at h
  obtain ⟨t, _, u, _, m₁, h₁, h₂⟩ := h
  obtain ⟨hl₁, ha⟩ := store_length h₁
  exact ⟨(store_length h₂).1.trans hl₁, ha⟩

theorem reverseStep_length {make_upper : Bool} {m m' : List UInt8} {a b : Int}
    (h : reverseStep make_upper m a b = some m') :
    m'.length = m.length ∧ 0 ≤ a ∧ a < m.length := by
  unfold reverseStep at h
  simp only [Option.bind_eq_bind, Option.bind_eq_some_iff] at h
  obtain ⟨m₁, h₁, h⟩ := h
  obtain ⟨hl₁, ha⟩ := swap_chars_length h₁
  split at h
  · simp only [Option.bind_eq_some_iff] at h
    obtain ⟨c, _, m₂, h₂, d, _, h₃⟩ := h
    exact ⟨(store_length h₃).1.trans ((store_length h₂).1.trans hl₁), ha⟩
  · cases h
    exact ⟨hl₁, ha⟩

/-- `for (i = 0; i <= l; ++i, ++a, --b)`, from the round `i`. -/
def reverseLoop (make_upper : Bool) (l i : Nat) (m : List UInt8) (a b : Int) :
    Option (List UInt8) :=
  if i ≤ l then
    match h : reverseStep make_upper m a b with
    | none => none
    | some m' => reverseLoop make_upper l ((i + 1) % 2 ^ 64) m' (a + 1) (b - 1)
  else some m
termination_by (m.length - a).toNat
decreasing_by
  have := reverseStep_length h
  omega

/-- `reverse_interval(a, b, make_upper)`; the half length is a `size_t`. -/
def reverse_interval (m : List UInt8) (a b : Int) (make_upper : Bool) : Option (List UInt8) :=
  reverseLoop make_upper (((b - a).tdiv 2) % 2 ^ 64).toNat 0 m a b

theorem reverseLoop_length {make_upper : Bool} {l i : Nat} {m m' : List UInt8} {a b : Int}
    (h : reverseLoop make_upper l i m a b = some m') : m'.length = m.length := by
  fun_induction reverseLoop make_upper l i m a b with
  | case1 i m a b hi hstep => cases h
  | case2 i m a b hi m₁ hstep ih => exact (ih h).trans (reverseStep_length hstep).1
  | case3 i m a b hi => cases h; rfl

theorem reverse_interval_length {m m' : List UInt8} {a b : Int} {make_upper : Bool}
    (h : reverse_interval m a b make_upper = some m') : m'.length = m.length :=
  reverseLoop_length h

/-- `strlen(p)`. -/
def strlenAt (m : List UInt8) (p : Int) : Option Nat :=
  if 0 ≤ p then strlen (m.drop p.toNat) else none

/-- `strchr(p, c)`, as a pointer. -/
def strchrAt (m : List UInt8) (p : Int) (c : UInt8) : Option (Option Int) :=
  if 0 ≤ p then (strchr c (m.drop p.toNat)).map (Option.map fun n : Nat => p + n) else none

theorem strchrAt_bounds {m : List UInt8} {p q : Int} {c : UInt8}
    (h : strchrAt m p c = some (some q)) : 0 ≤ p ∧ p ≤ q ∧ q < m.length := by
  unfold strchrAt at h
  split at h
  · next hp =>
      obtain ⟨r, hr, hq⟩ := Option.map_eq_some_iff.mp h
      obtain ⟨n, rfl, rfl⟩ := Option.map_eq_some_iff.mp hq
      have hn := strchr_lt hr
      rw [List.length_drop] at hn
      omega
  · cases h

/-- `for (ws = str; we; ws = we)`: one word after another is reversed back. -/
def wordLoop (m : List UInt8) (se ws : Int) : Option (List UInt8) :=
  match hc : strchrAt m ws 32 with
  | none => none
  | some none => reverse_interval m ws (se - 1) false
  | some (some we) =>
      match hr : reverse_interval m ws (we - 1) false with
      | none => none
      | some m' => wordLoop m' se (we + 1)
termination_by (m.length - ws).toNat
decreasing_by
  have hl := reverse_interval_length hr
  have hb := strchrAt_bounds hc
  omega

/-- `str + n` for a `size_t` `n`: pointers wrap around, so `2 ^ 64 - 1` is a step back. -/
def ptrAdd (p : Int) (n : Nat) : Int := p + (n : Int).bmod (2 ^ 64)

def reverse_string (m : List UInt8) (str : Int) : Option (List UInt8) := do
  let n ← strlenAt m str
  let len := size_sub n 1
  let se := ptrAdd str n - 1
  let m ← reverse_interval m str (ptrAdd str len - 1) true
  match ← strchrAt m str 32 with
  | none => some m
  | some _ => wordLoop m se str

theorem wordLoop_length {m m' : List UInt8} {se ws : Int} (h : wordLoop m se ws = some m') :
    m'.length = m.length := by
  fun_induction wordLoop m se ws with
  | case1 m ws hc => cases h
  | case2 m ws hc => exact reverse_interval_length h
  | case3 m ws we hc hr => cases h
  | case4 m ws we hc m₁ hr ih => exact (ih h).trans (reverse_interval_length hr)

theorem reverse_string_length {m m' : List UInt8} {str : Int}
    (h : reverse_string m str = some m') : m'.length = m.length := by
  unfold reverse_string at h
  simp only [Option.bind_eq_bind, Option.bind_eq_some_iff] at h
  obtain ⟨n, _, m₁, h₁, we, _, h⟩ := h
  cases we with
  | none => cases h; exact reverse_interval_length h₁
  | some we => exact (wordLoop_length h).trans (reverse_interval_length h₁)

/-! ## The proc file -/

def BUFFER_SIZE : Nat := 256

def ENOMEM : Int := 12

/-- The module's variables, and the memory the buffer lies in. -/
structure Rw where
  mem : List UInt8
  proc_buffer : Nat
  proc_msg_length : Nat
  proc_msg_read_pos : Nat

def Rw.setReadPos (s : Rw) (n : Nat) : Rw := { s with proc_msg_read_pos := n }

@[simp] theorem Rw.setReadPos_mem (s : Rw) (n : Nat) : (s.setReadPos n).mem = s.mem := rfl

@[simp] theorem Rw.setReadPos_proc_buffer (s : Rw) (n : Nat) :
    (s.setReadPos n).proc_buffer = s.proc_buffer := rfl

@[simp] theorem Rw.setReadPos_proc_msg_length (s : Rw) (n : Nat) :
    (s.setReadPos n).proc_msg_length = s.proc_msg_length := rfl

@[simp] theorem Rw.setReadPos_proc_msg_read_pos (s : Rw) (n : Nat) :
    (s.setReadPos n).proc_msg_read_pos = n := rfl

/-- `create_buffer`, with the memory and the pointer that `kmalloc` returns (`none`: null).
    The cursor is a static variable and still 0. -/
def create_buffer (kmalloc : Option (List UInt8 × Nat)) : Except Int Rw :=
  match kmalloc with
  | none => .error (-ENOMEM)
  | some (mem, p) => .ok ⟨mem, p, 0, 0⟩

/-- The number of bytes `example_read` asks `copy_to_user` for. -/
def request (s : Rw) (length : Nat) : Nat :=
  if length > size_sub s.proc_msg_length s.proc_msg_read_pos then
    size_sub s.proc_msg_length s.proc_msg_read_pos
  else length

/-- `example_read`: the return value, the bytes delivered, and the module after the call. -/
def example_read (s : Rw) (length left : Nat) : Option (Nat × List UInt8 × Rw) := do
  let length := request s length
  let bytes ← copy_to_user s.mem (s.proc_buffer + s.proc_msg_read_pos) length left
  some (length - left, bytes, s.setReadPos (size_add s.proc_msg_read_pos (length - left)))

/-- `example_write`, on the user memory `buffer`. -/
def example_write (s : Rw) (buffer : List UInt8) (length left : Nat) : Option (Nat × Rw) := do
  let msg_length := if length > BUFFER_SIZE then BUFFER_SIZE else length
  let bytes ← copy_from_user buffer msg_length left
  let mem ← storeBytes s.mem s.proc_buffer bytes
  let mem ← reverse_string mem s.proc_buffer
  some (length, ⟨mem, s.proc_buffer, msg_length - left, 0⟩)

end KernelBasecamp.Procfs
