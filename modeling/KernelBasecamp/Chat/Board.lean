/-
  What the chat is for: a board of posts, and for each user a view of it.

  `Board` knows who wrote what. It has the names by minor, the posts since the last reset with
  the minor they were written through, and the capacity. `Board.step` is the use of the module
  in which this can work: short names without ':', newline and NUL, pairwise distinct; posts of
  one line each; resets that allocate; and never more text than fits with its terminator. Other
  calls are not possible (`none`).

  * `Board.filter_mine`: looking for the prefix "name:" among the lines of the board finds the
    view of that user. This is where distinct names without a colon are needed.
-/
import Mathlib
import KernelBasecamp.Chat.Log

namespace KernelBasecamp.Chat

open Lib

structure Board where
  /-- by minor; minor 0 is "all" -/
  names : List (List UInt8)
  /-- minor and payload -/
  posts : List (Nat × List UInt8)
  size : Nat
  deriving DecidableEq, Repr

def NameOk (name : List UInt8) : Prop :=
  name.length < MAX_USER_NAME ∧ 58 ∉ name ∧ 10 ∉ name ∧ 0 ∉ name

instance (name : List UInt8) : Decidable (NameOk name) :=
  inferInstanceAs (Decidable (name.length < MAX_USER_NAME ∧ 58 ∉ name ∧ 10 ∉ name ∧ 0 ∉ name))

namespace Board

def init : Board := ⟨[literal "all"], [], DEFAULT_BUFFER_SIZE⟩

/-- The line of a post: "name: payload". -/
def line (b : Board) (p : Nat × List UInt8) : List UInt8 := message (b.names.getD p.1 []) p.2

/-- All lines in writing order. -/
def lines (b : Board) : List (List UInt8) := b.posts.map b.line

def text (b : Board) : List UInt8 := b.lines.flatten

/-- What minor `k` is to read: the lines written through it, or all lines on minor 0. -/
def view (b : Board) (k : Nat) : List (List UInt8) :=
  if k = 0 then b.lines else (b.posts.filter fun p => p.1 == k).map b.line

def step (b : Board) : Act → Option Board
  | .add buffer length left =>
      if left = 0 ∧ buffer.length = length ∧ buffer ≠ [] ∧ b.names.length < MAX_USERS ∧
          NameOk buffer.dropLast ∧ buffer.dropLast ∉ b.names then
        some { b with names := b.names ++ [buffer.dropLast] }
      else none
  | .write k payload count left =>
      if left = 0 ∧ payload.length = count ∧ 0 < k ∧ k < b.names.length ∧ LogLine payload ∧
          b.text.length + (b.line (k, payload)).length + 1 ≤ b.size then
        some { b with posts := b.posts ++ [(k, payload)] }
      else none
  | .reset _ none _ => none
  | .reset _ (some n) ok =>
      if ok = true ∧ n ≠ 0 ∧ 0 < (n * 1024).toNat then
        some { b with posts := [], size := (n * 1024).toNat }
      else none
  | .read k _ left => if k < b.names.length ∧ left = [] then some b else none
  | .stat left => if left = 0 then some b else none

/-- The invariant of the board. -/
structure Wf (b : Board) : Prop where
  names_pos : 0 < b.names.length
  names_le : b.names.length ≤ MAX_USERS
  names_ok : ∀ name ∈ b.names, NameOk name
  nodup : b.names.Nodup
  posts_ok : ∀ p ∈ b.posts, 0 < p.1 ∧ p.1 < b.names.length ∧ LogLine p.2
  room : b.text.length < b.size

theorem wf_init : init.Wf where
  names_pos := by decide
  names_le := by decide
  names_ok := by decide
  nodup := by decide
  posts_ok _ h := nomatch h
  room := by decide

theorem line_eq {b : Board} {p : Nat × List UInt8} (h : p.1 < b.names.length) :
    b.line p = message b.names[p.1] p.2 := by
  unfold line
  rw [List.getD_eq_getElem _ _ h]

theorem logLine_message {name payload : List UInt8} (hname : NameOk name)
    (hp : LogLine payload) : LogLine (message name payload) := by
  obtain ⟨-, -, hn, h0⟩ := hname
  obtain ⟨⟨body, hbody, rfl⟩, hp0⟩ := hp
  unfold message
  rw [literal_colon]
  refine ⟨⟨name ++ [58, 32] ++ body, by simp [hn, hbody], by simp⟩, ?_⟩
  simpa [h0] using hp0

theorem Wf.logLine {b : Board} (h : b.Wf) : ∀ l ∈ b.lines, LogLine l := by
  intro l hl
  obtain ⟨p, hp, rfl⟩ := List.mem_map.mp hl
  obtain ⟨-, hlt, hline⟩ := h.posts_ok p hp
  rw [line_eq hlt]
  exact logLine_message (h.names_ok _ (List.getElem_mem hlt)) hline

theorem Wf.text_nul {b : Board} (h : b.Wf) : 0 ∉ b.text := by
  intro h0
  obtain ⟨l, hl, hmem⟩ := List.mem_flatten.mp h0
  exact (h.logLine l hl).2 hmem

/-- The line of a post starts with "name_k:" exactly when it was written through minor `k`. -/
theorem Wf.mine_line {b : Board} (h : b.Wf) {k : Nat} (hk : k < b.names.length) (hk0 : k ≠ 0)
    {p : Nat × List UInt8} (hp : p ∈ b.posts) :
    mine k b.names[k] (b.line p) = (p.1 == k) := by
  obtain ⟨-, hlt, -⟩ := h.posts_ok p hp
  have hcolon : ∀ i (hi : i < b.names.length), 58 ∉ b.names[i] :=
    fun i hi => (h.names_ok _ (List.getElem_mem hi)).2.1
  rw [line_eq hlt, Bool.eq_iff_iff, mine_iff hk0, message, literal_colon, beq_iff_eq,
    List.append_assoc]
  change b.names[k] ++ [58] <+: b.names[p.1] ++ 58 :: ([32] ++ p.2) ↔ _
  rw [prefix_sep_iff 58 (hcolon k hk) (hcolon p.1 hlt), h.nodup.getElem_inj_iff]
  exact eq_comm

/-- The lines found by the prefix "name_k:" are the view of minor `k`. -/
theorem Wf.filter_mine {b : Board} (h : b.Wf) {k : Nat} (hk : k < b.names.length) :
    b.lines.filter (mine k b.names[k]) = b.view k := by
  unfold view
  split
  · next hk0 =>
      subst hk0
      exact List.filter_eq_self.mpr fun _ _ => rfl
  · next hk0 =>
      unfold lines
      rw [List.filter_map]
      congr 1
      refine List.filter_congr fun p hp => ?_
      exact h.mine_line hk hk0 hp

/-! ## The steps keep the invariant -/

/-- A new name leaves the lines alone. -/
theorem Wf.lines_add {b : Board} (h : b.Wf) (name : List UInt8) :
    lines { b with names := b.names ++ [name] } = b.lines := by
  unfold lines
  refine List.map_congr_left fun p hp => ?_
  obtain ⟨-, hlt, -⟩ := h.posts_ok p hp
  unfold line
  rw [List.getD_append _ _ _ _ hlt]

theorem text_post (b : Board) (p : Nat × List UInt8) :
    text { b with posts := b.posts ++ [p] } = b.text ++ b.line p := by
  have hlines : lines { b with posts := b.posts ++ [p] } = b.lines ++ [b.line p] := by
    unfold lines
    rw [List.map_append]
    rfl
  unfold text
  rw [hlines, List.flatten_append, List.flatten_singleton]

theorem Wf.add {b : Board} (h : b.Wf) {name : List UInt8} (hlt : b.names.length < MAX_USERS)
    (hok : NameOk name) (hnew : name ∉ b.names) :
    Wf { b with names := b.names ++ [name] } := by
  refine ⟨?_, ?_, fun name' hn => ?_, ?_, fun p hp => ?_, ?_⟩
  · rw [List.length_append]
    exact Nat.add_pos_left h.names_pos _
  · rw [List.length_append]
    exact hlt
  · rcases List.mem_append.mp hn with hn | hn
    · exact h.names_ok name' hn
    · rw [List.mem_singleton.mp hn]
      exact hok
  · refine List.nodup_append.mpr ⟨h.nodup, List.nodup_singleton _, ?_⟩
    rintro x hx y hy rfl
    rw [List.mem_singleton.mp hy] at hx
    exact hnew hx
  · obtain ⟨hpos, hlt', hline⟩ := h.posts_ok p hp
    rw [List.length_append]
    exact ⟨hpos, Nat.lt_add_right _ hlt', hline⟩
  · unfold text
    rw [h.lines_add]
    exact h.room

theorem Wf.post {b : Board} (h : b.Wf) {p : Nat × List UInt8} (hpos : 0 < p.1)
    (hlt : p.1 < b.names.length) (hline : LogLine p.2)
    (hfit : b.text.length + (b.line p).length + 1 ≤ b.size) :
    Wf { b with posts := b.posts ++ [p] } := by
  refine ⟨h.names_pos, h.names_le, h.names_ok, h.nodup, fun q hq => ?_, ?_⟩
  · rcases List.mem_append.mp hq with hq | hq
    · exact h.posts_ok q hq
    · rw [List.mem_singleton.mp hq]
      exact ⟨hpos, hlt, hline⟩
  · rw [text_post, List.length_append]
    exact hfit

theorem Wf.reset {b : Board} (h : b.Wf) {size : Nat} (hpos : 0 < size) :
    Wf { b with posts := [], size } :=
  ⟨h.names_pos, h.names_le, h.names_ok, h.nodup, (fun _ hp => nomatch hp), hpos⟩

theorem wf_step {b b' : Board} {a : Act} (h : b.Wf) (hb : b.step a = some b') : b'.Wf := by
  unfold step at hb
  split at hb
  · split at hb <;> cases hb
    next hc => exact h.add hc.2.2.2.1 hc.2.2.2.2.1 hc.2.2.2.2.2
  · split at hb <;> cases hb
    next hc => exact h.post hc.2.2.1 hc.2.2.2.1 hc.2.2.2.2.1 hc.2.2.2.2.2
  · cases hb
  · split at hb <;> cases hb
    next hc => exact h.reset hc.2.2
  · split at hb <;> cases hb
    exact h
  · split at hb <;> cases hb
    exact h

end Board

end KernelBasecamp.Chat
