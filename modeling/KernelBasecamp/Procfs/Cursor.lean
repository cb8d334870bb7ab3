/-
  The read cursor of the procfs module over whole runs.

  A run starts after a successful `create_buffer` and mixes `example_write` and `example_read`
  calls of any clients, with any lengths and any number of bytes left uncopied; a write step is
  possible only when `reverse_string` returns. `Session.delivered` collects the bytes that the
  reads since the last write have handed out. The invariant ties the three globals together:
  the cursor never passes the message length, the message fits the buffer, the buffer lies in
  memory, and what has been delivered is the buffer up to the cursor.
-/
import KernelBasecamp.Lib.Run
import KernelBasecamp.Procfs.Rw

namespace KernelBasecamp.Procfs

open Lib Lib.CMem

/-- The first `n` bytes of the buffer. -/
def Rw.upTo (s : Rw) (n : Nat) : List UInt8 := (s.mem.drop s.proc_buffer).take n

/-- The module, and the bytes delivered by the reads since the last write. -/
structure Session where
  dev : Rw
  delivered : List UInt8

/-- A call through the proc file, with the number of bytes its copy leaves uncopied. -/
inductive Call where
  | write (file : Nat) (buffer : List UInt8) (length left : Nat)
  | read (file : Nat) (length left : Nat)

def step (s : Session) : Call → Option Session
  | .write _ buffer length left =>
      (example_write s.dev buffer length left).map fun r => ⟨r.2, []⟩
  | .read _ length left =>
      (example_read s.dev length left).map fun r => ⟨r.2.2, s.delivered ++ r.2.1⟩

/-- The cursor invariant. -/
structure Inv (s : Session) : Prop where
  pos_le : s.dev.proc_msg_read_pos ≤ s.dev.proc_msg_length
  length_le : s.dev.proc_msg_length ≤ BUFFER_SIZE
  fits : s.dev.proc_buffer + BUFFER_SIZE ≤ s.dev.mem.length
  delivered : s.delivered = s.dev.upTo s.dev.proc_msg_read_pos

/-! ## One call -/

/-- Under the invariant the subtraction of `example_read` does not wrap. -/
theorem Inv.size_sub_eq {s : Session} (h : Inv s) :
    size_sub s.dev.proc_msg_length s.dev.proc_msg_read_pos =
      s.dev.proc_msg_length - s.dev.proc_msg_read_pos := by
  have := h.length_le
  unfold BUFFER_SIZE at this
  exact size_sub_of_le h.pos_le (by omega)

theorem Inv.request_eq {s : Session} (h : Inv s) (length : Nat) :
    request s.dev length = min length (s.dev.proc_msg_length - s.dev.proc_msg_read_pos) := by
  unfold request
  rw [h.size_sub_eq]
  split <;> omega

/-- A read asks for bytes of the message only. -/
theorem Inv.request_le {s : Session} (h : Inv s) (length : Nat) :
    s.dev.proc_msg_read_pos + request s.dev length ≤ s.dev.proc_msg_length := by
  have := h.pos_le
  rw [h.request_eq]
  omega

/-- A read is served whenever its copy leaves at most what was asked for. -/
theorem Inv.example_read_isSome {s : Session} (h : Inv s) {length left : Nat}
    (hleft : left ≤ request s.dev length) : (example_read s.dev length left).isSome := by
  have hreq := h.request_le length
  have hlen := h.length_le
  have hfit := h.fits
  have hcopy := copy_to_user_eq_some.mpr ⟨⟨hleft, show s.dev.proc_buffer +
    s.dev.proc_msg_read_pos + request s.dev length ≤ s.dev.mem.length by omega⟩, rfl⟩
  unfold example_read
  simp only [hcopy, Option.bind_eq_bind, Option.bind_some, Option.isSome_some]

/-- A read delivers the bytes behind the cursor, as many as it returns, and moves the cursor
    past them. -/
theorem Inv.example_read_spec {s : Session} (h : Inv s) {length left : Nat}
    {r : Nat × List UInt8 × Rw} (hr : example_read s.dev length left = some r) :
    r.1 = request s.dev length - left ∧
    r.2.1 = (s.dev.mem.drop (s.dev.proc_buffer + s.dev.proc_msg_read_pos)).take r.1 ∧
    r.2.2.mem = s.dev.mem ∧ r.2.2.proc_buffer = s.dev.proc_buffer ∧
    r.2.2.proc_msg_length = s.dev.proc_msg_length ∧
    r.2.2.proc_msg_read_pos = s.dev.proc_msg_read_pos + r.1 := by
  have hreq := h.request_le length
  have hlen := h.length_le
  unfold BUFFER_SIZE at hlen
  unfold example_read at hr
  simp only [Option.bind_eq_bind, Option.bind_eq_some_iff] at hr
  obtain ⟨bytes, hcopy, hr⟩ := hr
  obtain ⟨_, rfl⟩ := copy_to_user_eq_some.mp hcopy
  cases hr
  have hsum := size_add_of_lt (a := s.dev.proc_msg_read_pos)
    (b := request s.dev length - left) (by omega)
  refine ⟨rfl, rfl, ?_, ?_, ?_, ?_⟩
  · rw [Rw.setReadPos_mem]
  · rw [Rw.setReadPos_proc_buffer]
  · rw [Rw.setReadPos_proc_msg_length]
  · rw [Rw.setReadPos_proc_msg_read_pos, hsum]

/-- A write leaves a message of the bytes copied, the cursor at its start, and the memory at
    its size. -/
theorem example_write_spec {s : Rw} {buffer : List UInt8} {length left : Nat} {r : Nat × Rw}
    (h : example_write s buffer length left = some r) :
    r.1 = length ∧ r.2.proc_msg_read_pos = 0 ∧ r.2.proc_buffer = s.proc_buffer ∧
      r.2.mem.length = s.mem.length ∧ r.2.proc_msg_length = min length BUFFER_SIZE - left := by
  unfold example_write at h
  simp only [Option.bind_eq_bind, Option.bind_eq_some_iff] at h
  obtain ⟨bytes, _, mem, hstore, mem', hrev, h⟩ := h
  cases h
  refine ⟨rfl, rfl, rfl, (reverse_string_length hrev).trans (storeBytes_length hstore), ?_⟩
  show (if length > BUFFER_SIZE then BUFFER_SIZE else length) - left = _
  split <;> omega

theorem inv_step {s s' : Session} {call : Call} (h : Inv s) (hs : step s call = some s') :
    Inv s' := by
  cases call with
  | write file buffer length left =>
      obtain ⟨r, hr, rfl⟩ := Option.map_eq_some_iff.mp hs
      obtain ⟨_, hpos, hbuf, hmem, hlen⟩ := example_write_spec hr
      refine ⟨?_, ?_, ?_, ?_⟩
      · show r.2.proc_msg_read_pos ≤ r.2.proc_msg_length
        omega
      · show r.2.proc_msg_length ≤ BUFFER_SIZE
        omega
      · show r.2.proc_buffer + BUFFER_SIZE ≤ r.2.mem.length
        rw [hbuf, hmem]
        exact h.fits
      · show [] = r.2.upTo r.2.proc_msg_read_pos
        rw [hpos]
        rfl
  | read file length left =>
      obtain ⟨r, hr, rfl⟩ := Option.map_eq_some_iff.mp hs
      obtain ⟨hret, hbytes, hmem, hbuf, hlen, hpos⟩ := h.example_read_spec hr
      have hreq := h.request_le length
      refine ⟨?_, ?_, ?_, ?_⟩
      · show r.2.2.proc_msg_read_pos ≤ r.2.2.proc_msg_length
        rw [hpos, hlen]
        omega
      · show r.2.2.proc_msg_length ≤ BUFFER_SIZE
        rw [hlen]
        exact h.length_le
      · show r.2.2.proc_buffer + BUFFER_SIZE ≤ r.2.2.mem.length
        rw [hbuf, hmem]
        exact h.fits
      · show s.delivered ++ r.2.1 = r.2.2.upTo r.2.2.proc_msg_read_pos
        unfold Rw.upTo
        rw [hmem, hbuf, hpos, hbytes, h.delivered, List.take_add, List.drop_drop]
        rfl

/-! ## Runs -/

/-- In every state reached after a successful `create_buffer`, whatever the calls and copies
    were: the cursor is at most the message length, which is at most the buffer size; the
    subtraction in `example_read` does not wrap, a read of any length asks only for bytes of
    the message, and it is served; the bytes delivered since the last write are the buffer up
    to the cursor; and a read of non-zero length without fault returns 0 exactly when the
    whole message has been delivered. -/
theorem cursor_run (kmalloc : List UInt8 × Nat)
    (hkmalloc : kmalloc.2 + BUFFER_SIZE ≤ kmalloc.1.length) (dev : Rw)
    (hload : create_buffer (some kmalloc) = .ok dev) (calls : List Call) (s : Session)
    (hrun : run step ⟨dev, []⟩ calls = some s) :
    s.dev.proc_msg_read_pos ≤ s.dev.proc_msg_length ∧ s.dev.proc_msg_length ≤ BUFFER_SIZE ∧
    size_sub s.dev.proc_msg_length s.dev.proc_msg_read_pos =
      s.dev.proc_msg_length - s.dev.proc_msg_read_pos ∧
    (∀ length, s.dev.proc_msg_read_pos + request s.dev length ≤ s.dev.proc_msg_length ∧
      ∀ left, left ≤ request s.dev length → (example_read s.dev length left).isSome) ∧
    s.delivered = s.dev.upTo s.dev.proc_msg_read_pos ∧
    (∀ length r, 0 < length → example_read s.dev length 0 = some r →
      (r.1 = 0 ↔ s.delivered = s.dev.upTo s.dev.proc_msg_length)) := by
  have hinit : Inv ⟨dev, []⟩ := by
    cases hload
    exact ⟨Nat.le_refl 0, Nat.zero_le _, hkmalloc, rfl⟩
  have h : Inv s := run_invariant Inv hinit (fun _ _ _ => inv_step) hrun
  refine ⟨h.pos_le, h.length_le, h.size_sub_eq, fun length => ⟨h.request_le length,
    fun left hleft => h.example_read_isSome hleft⟩, h.delivered, ?_⟩
  intro length r hpos hr
  have hle := h.pos_le
  have hlen := h.length_le
  have hfit := h.fits
  rw [(h.example_read_spec hr).1, h.request_eq, h.delivered]
  constructor
  · intro hzero
    have : s.dev.proc_msg_read_pos = s.dev.proc_msg_length := by omega
    rw [this]
  · intro hall
    have hcount := congrArg List.length hall
    simp only [Rw.upTo, List.length_take, List.length_drop] at hcount
    omega

/-- A client writes "hi" and a newline and reads two bytes. -/
theorem cursor_run_hi :
    ∃ s, run step ⟨⟨List.replicate 256 0, 0, 0, 0⟩, []⟩
        [.write 0 [104, 105, 10] 3 0, .read 0 2 0] = some s ∧
      s.dev.proc_msg_read_pos ≤ s.dev.proc_msg_length ∧
      s.delivered = s.dev.upTo s.dev.proc_msg_read_pos := by
  have hsome : (run step ⟨⟨List.replicate 256 0, 0, 0, 0⟩, []⟩
      [.write 0 [104, 105, 10] 3 0, .read 0 2 0]).isSome := by decide +kernel
  obtain ⟨s, hs⟩ := Option.isSome_iff_exists.mp hsome
  have hlen : 0 + BUFFER_SIZE ≤ (List.replicate 256 (0 : UInt8)).length := by
    rw [List.length_replicate]
    decide
  have h := cursor_run (List.replicate 256 0, 0) hlen _ rfl _ s hs
  exact ⟨s, hs, h.1, h.2.2.2.2.1⟩

end KernelBasecamp.Procfs
