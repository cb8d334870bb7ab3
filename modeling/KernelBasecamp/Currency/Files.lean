/-
  The two currency files do not disturb each other.

  `View f` is what matters of the module to the users of one file: its amount and flags, and
  the rate. `View.next` is the machine of one file on its own, which passes over the calls to
  the other one; the module runs two of them side by side (`view_step`), although they share
  the buffer and each file's record carries the other file's digits. A read answers from the
  view alone (`proc_read_eq`).

  * `conversions_run`: in every run, a read that does not return 0 delivers the conversion of
    the last amount accepted on its file at the current rate, and no call to the other file
    changes what it delivers.
-/
import Mathlib
import KernelBasecamp.Currency.Exchange

namespace KernelBasecamp.Currency

open Lib Lib.CInt Lib.CMem Lib.Decimal Lib.Sscanf

/-! ## One file -/

/-- The record with the amount and the flags of a file. -/
def File.source : File → Ptr
  | .uah_to_eu => .uah
  | .eu_to_uah => .eu

structure View where
  amount : Int
  rate : Int
  read : Bool
  write : Bool
  deriving DecidableEq, Repr

def State.view (s : State) (f : File) : View :=
  ⟨(s.get f.source).amount, s.current_exchange_rate, (s.get f.source).read,
    (s.get f.source).write⟩

/-- The integer that `sscanf` makes of the bytes copied by a write. -/
def carried (buffer : List UInt8) (left : Nat) : Option Int := do
  let proc_buffer ← copy_from_user buffer BUFFER_SIZE left
  let (n, _) ← (← scanInt proc_buffer)
  some (wrap 32 n)

def View.next (f : File) (v : View) : Act → View
  | .rate buf =>
      match (scanInt buf).join with
      | none => v
      | some (n, _) => { v with rate := wrap 32 n }
  | .write g buffer _ left =>
      if g ≠ f then v
      else if v.write then { v with write := false }
      else { v with write := true, amount := (carried buffer left).getD v.amount }
  | .read g _ => if g ≠ f then v else { v with read := !v.read }

/-- The hundredths that a file delivers; `none` where the division faults. -/
def converted : File → Int → Int → Option Int
  | .uah_to_eu, amount, rate => divide 32 (wrap 32 (100 * amount)) rate
  | .eu_to_uah, amount, rate => some (wrap 32 (wrap 32 (100 * amount) * rate))

def hundredthsText (n : Int) : List UInt8 := amountText (n.tdiv 100) (n.tmod 100)

/-- What a read with a complete copy returns and delivers. -/
def View.answer (f : File) (v : View) : Option (Nat × List UInt8) :=
  (converted f v.amount v.rate).map fun n =>
    if v.read then (0, []) else ((hundredthsText n).length, hundredthsText n)

/-! ## The text fits the buffer -/

theorem natAbs_converted {f : File} {amount rate n : Int}
    (h : converted f amount rate = some n) : n.natAbs ≤ 2 ^ 31 := by
  have hwrap : ∀ x, (wrap 32 x).natAbs ≤ 2 ^ 31 := by
    intro x
    have hrange := inRange_wrap (by decide : 0 < 32) x
    unfold InRange at hrange
    omega
  cases f with
  | uah_to_eu =>
      unfold converted divide at h
      dsimp only at h
      split at h
      · cases h
      · cases h
        rw [Int.natAbs_tdiv]
        exact (Nat.div_le_self _ _).trans (hwrap _)
  | eu_to_uah =>
      cases h
      exact hwrap _

theorem length_hundredthsText {n : Int} (hn : n.natAbs ≤ 2 ^ 31) :
    (hundredthsText n).length < BUFFER_SIZE := by
  have hl : (intText (n.tdiv 100)).length ≤ 8 + 1 := by
    refine length_intText_le (by decide) ?_
    rw [Int.natAbs_tdiv]
    exact Nat.lt_of_le_of_lt (Nat.div_le_div_right hn) (by decide)
  have hr : (intText (n.tmod 100)).length ≤ 2 + 1 := by
    refine length_intText_le (by decide) ?_
    rw [Int.natAbs_tmod]
    exact Nat.mod_lt _ (by decide)
  unfold hundredthsText amountText BUFFER_SIZE
  rw [List.length_append, List.length_append, List.length_append, List.length_singleton,
    List.length_singleton]
  omega

theorem nul_not_mem_amountText (l r : Int) : 0 ∉ amountText l r := by
  unfold amountText
  rw [List.mem_append, List.mem_append, List.mem_append]
  rintro (((h | h) | h) | h)
  · exact nul_not_mem_intText l h
  · exact absurd h (by decide)
  · exact nul_not_mem_intText r h
  · exact absurd h (by decide)

/-! ## One call -/

/-- The record of a file after a read of it. -/
def CurrencyT.afterRead (c : CurrencyT) : CurrencyT := { c with read := !c.read }

/-- The record of a file after a write to it. -/
def CurrencyT.afterWrite (c : CurrencyT) (buffer : List UInt8) (left : Nat) : CurrencyT :=
  if c.write then { c with write := false }
  else { c with write := true, amount := (carried buffer left).getD c.amount }

theorem exchange_read_cases {s s' : State} {left n : Nat} {src dst : Ptr} {bytes : List UInt8}
    (h : exchange_read s left src dst = some (s', n, bytes)) :
    ∃ m, m.length = s.proc_buffer.length ∧
      s' = { s.set src (s.get src).afterRead with proc_buffer := m } := by
  unfold exchange_read at h
  unfold CurrencyT.afterRead
  dsimp only at h
  cases hread : (s.get src).read with
  | true =>
      rw [if_pos hread] at h
      cases h
      exact ⟨(s.set src _).proc_buffer, by rw [State.set_proc_buffer], rfl⟩
  | false =>
      rw [if_neg (by rw [hread]; exact Bool.false_ne_true)] at h
      obtain ⟨m, hm, h⟩ := Option.bind_eq_some_iff.mp h
      obtain ⟨_, _, h⟩ := Option.bind_eq_some_iff.mp h
      obtain ⟨_, _, h⟩ := Option.bind_eq_some_iff.mp h
      cases h
      exact ⟨m, by rw [storeBytes_length hm, State.set_proc_buffer], rfl⟩

theorem exchange_write_cases {s s' : State} {buffer : List UInt8} {length left n : Nat} {src : Ptr}
    (hbuf : s.proc_buffer.length = BUFFER_SIZE)
    (h : exchange_write s buffer length left src = some (s', n)) :
    ∃ m, m.length = BUFFER_SIZE ∧
      s' = { s.set src ((s.get src).afterWrite buffer left) with proc_buffer := m } := by
  unfold exchange_write at h
  unfold CurrencyT.afterWrite
  dsimp only at h
  cases hwrite : (s.get src).write with
  | true =>
      rw [if_pos hwrite] at h
      cases h
      exact ⟨(s.set src _).proc_buffer, by rw [State.set_proc_buffer, hbuf], rfl⟩
  | false =>
      rw [if_neg (by rw [hwrite]; exact Bool.false_ne_true)] at h
      obtain ⟨m, hm, h⟩ := Option.bind_eq_some_iff.mp h
      obtain ⟨scanned, hscan, h⟩ := Option.bind_eq_some_iff.mp h
      cases h
      have hcarried : carried buffer left = scanned.map fun x => wrap 32 x.1 := by
        unfold carried
        rw [hm, Option.bind_eq_bind, Option.bind_some, hscan, Option.bind_eq_bind,
          Option.bind_some]
        cases scanned <;> rfl
      refine ⟨m, (copy_from_user_length hm).2, ?_⟩
      rw [hcarried]
      cases scanned <;> rfl

/-- The conversion before a read touches the digits only. -/
theorem uah_to_eu_eq (s : State) :
    uah_to_eu s = (converted .uah_to_eu s.uah.amount s.current_exchange_rate).map fun n =>
      { s with eu := { s.eu with l := n.tdiv 100, r := n.tmod 100 } } :=
  Option.map_eq_bind.symm

/-! ## Two machines side by side -/

theorem source_ne {f g : File} (h : g ≠ f) : g.source ≠ f.source := by
  cases f <;> cases g <;> first | exact absurd rfl h | decide

/-- A record written back, whatever the buffer, is seen by its own file alone. -/
theorem view_set (s : State) (f g : File) (c : CurrencyT) (m : List UInt8) :
    State.view { s.set f.source c with proc_buffer := m } g =
      if g = f then ⟨c.amount, s.current_exchange_rate, c.read, c.write⟩ else s.view g := by
  unfold State.view
  rw [State.get_buffer]
  split
  · next h =>
      rw [h, State.get_set, State.set_rate]
  · next h =>
      rw [State.get_set_of_ne s (source_ne h), State.set_rate]

theorem exchange_read_view {f : File} {s s' : State} {left n : Nat} {dst : Ptr}
    {bytes : List UInt8} (h : exchange_read s left f.source dst = some (s', n, bytes)) (g : File) :
    s'.proc_buffer.length = s.proc_buffer.length ∧
      s'.view g = (s.view g).next g (.read f left) := by
  obtain ⟨m, hm, rfl⟩ := exchange_read_cases h
  refine ⟨hm, ?_⟩
  rw [view_set]
  unfold View.next
  dsimp only
  split
  · next hg => rw [hg, if_neg (not_not.mpr rfl)]; rfl
  · next hg => rw [if_pos (Ne.symm hg)]

theorem view_eu_to_uah (s : State) (g : File) : (eu_to_uah s).view g = s.view g := by
  cases g <;> rfl

theorem proc_read_view {f : File} {s s' : State} {left n : Nat} {bytes : List UInt8}
    (h : proc_read f s left = some (s', n, bytes)) (g : File) :
    s'.proc_buffer.length = s.proc_buffer.length ∧
      s'.view g = (s.view g).next g (.read f left) := by
  cases f with
  | uah_to_eu =>
      obtain ⟨t, ht, h⟩ := Option.bind_eq_some_iff.mp h
      rw [uah_to_eu_eq] at ht
      obtain ⟨q, _, rfl⟩ := Option.map_eq_some_iff.mp ht
      obtain ⟨hlen, hview⟩ := exchange_read_view (f := .uah_to_eu) h g
      refine ⟨hlen, hview.trans ?_⟩
      cases g <;> rfl
  | eu_to_uah =>
      obtain ⟨hlen, hview⟩ := exchange_read_view (f := .eu_to_uah) h g
      rw [view_eu_to_uah] at hview
      exact ⟨hlen, hview⟩

theorem proc_write_view {f : File} {s s' : State} {buffer : List UInt8} {length left n : Nat}
    (hbuf : s.proc_buffer.length = BUFFER_SIZE)
    (h : proc_write f s buffer length left = some (s', n)) (g : File) :
    s'.proc_buffer.length = BUFFER_SIZE ∧
      s'.view g = (s.view g).next g (.write f buffer length left) := by
  have hwrite : exchange_write s buffer length left f.source = some (s', n) := by
    cases f <;> exact h
  obtain ⟨m, hm, rfl⟩ := exchange_write_cases hbuf hwrite
  refine ⟨hm, ?_⟩
  rw [view_set]
  unfold View.next CurrencyT.afterWrite
  dsimp only
  split
  · next hg =>
      rw [hg, if_neg (not_not.mpr rfl)]
      unfold State.view
      dsimp only
      cases (s.get f.source).write <;> rfl
  · next hg => rw [if_pos (Ne.symm hg)]

/-- Each file's view steps on its own. -/
theorem view_step {s s' : State} {a : Act} (hbuf : s.proc_buffer.length = BUFFER_SIZE)
    (hs : step s a = some s') (f : File) :
    s'.proc_buffer.length = BUFFER_SIZE ∧ s'.view f = (s.view f).next f a := by
  cases a with
  | rate buf =>
      obtain ⟨scanned, hscan, h⟩ := Option.bind_eq_some_iff.mp hs
      unfold View.next
      dsimp only
      rw [hscan, Option.join_some]
      cases scanned with
      | none =>
          cases h
          exact ⟨hbuf, rfl⟩
      | some x =>
          cases h
          refine ⟨hbuf, ?_⟩
          cases f <;> rfl
  | write g buffer length left =>
      obtain ⟨⟨t, n⟩, h, rfl⟩ := Option.map_eq_some_iff.mp hs
      exact proc_write_view hbuf h f
  | read g left =>
      obtain ⟨⟨t, n, bytes⟩, h, rfl⟩ := Option.map_eq_some_iff.mp hs
      obtain ⟨hlen, hview⟩ := proc_read_view h f
      exact ⟨hlen.trans hbuf, hview⟩

/-! ## What a read answers -/

theorem exchange_read_answer {s : State} (hbuf : s.proc_buffer.length = BUFFER_SIZE)
    {src dst : Ptr} (hne : dst ≠ src) {n : Int} (hn : n.natAbs ≤ 2 ^ 31)
    (hl : (s.get dst).l = n.tdiv 100) (hr : (s.get dst).r = n.tmod 100) :
    (exchange_read s 0 src dst).map Prod.snd =
      some (if (s.get src).read then (0, [])
        else ((hundredthsText n).length, hundredthsText n)) := by
  unfold exchange_read
  dsimp only
  cases hread : (s.get src).read with
  | true => rfl
  | false =>
      have hlen := length_hundredthsText hn
      have hnul : 0 ∉ hundredthsText n := nul_not_mem_amountText _ _
      obtain ⟨d, hd⟩ : ∃ d, storeBytes s.proc_buffer 0 (hundredthsText n ++ [0]) =
          some (hundredthsText n ++ 0 :: d) := by
        refine ⟨s.proc_buffer.drop ((hundredthsText n).length + 1), ?_⟩
        unfold storeBytes
        rw [if_pos (by rw [List.length_append, List.length_singleton, hbuf]; omega)]
        simp
      have hcopy : copy_to_user (hundredthsText n ++ 0 :: d) 0 (hundredthsText n).length 0 =
          some (hundredthsText n) := by
        rw [copy_to_user_eq_some]
        exact ⟨⟨Nat.zero_le _, by simp⟩, by simp⟩
      have hsize : size_sub (hundredthsText n).length 0 = (hundredthsText n).length :=
        size_sub_of_le (Nat.zero_le _) (hlen.trans (by decide))
      rw [if_neg Bool.false_ne_true, if_neg Bool.false_ne_true, State.get_set_of_ne s hne, hl, hr,
        State.set_proc_buffer]
      change Option.map Prod.snd ((storeBytes s.proc_buffer 0 (hundredthsText n ++ [0])).bind
        fun m => (strlen m).bind fun length => (copy_to_user m 0 length 0).bind fun bytes =>
          some (_, size_sub length 0, bytes)) = _
      rw [hd, Option.bind_some, strlen_append hnul, Option.bind_some, hcopy, Option.bind_some,
        hsize]
      rfl

/-- A read answers from the view of its file. -/
theorem proc_read_eq {s : State} (hbuf : s.proc_buffer.length = BUFFER_SIZE) (f : File) :
    (proc_read f s 0).map Prod.snd = (s.view f).answer f := by
  unfold View.answer
  cases f with
  | uah_to_eu =>
      change ((uah_to_eu s).bind fun t => exchange_read t 0 .uah .eu).map Prod.snd = _
      rw [uah_to_eu_eq]
      change _ = (converted .uah_to_eu s.uah.amount s.current_exchange_rate).map _
      cases hq : converted .uah_to_eu s.uah.amount s.current_exchange_rate with
      | none => rfl
      | some n =>
          let t : State := { s with eu := { s.eu with l := n.tdiv 100, r := n.tmod 100 } }
          have hdst : Ptr.eu ≠ Ptr.uah := by decide
          exact exchange_read_answer (s := t) hbuf hdst (natAbs_converted hq) rfl rfl
  | eu_to_uah =>
      have hdst : Ptr.uah ≠ Ptr.eu := by decide
      exact exchange_read_answer (s := eu_to_uah s) hbuf hdst
        (natAbs_converted (f := .eu_to_uah) rfl) rfl rfl

/-! ## Runs -/

/-- The calls that a file notices: those on it, and the changes of the rate. -/
def Act.concerns (f : File) : Act → Bool
  | .rate _ => true
  | .write g _ _ _ => g = f
  | .read g _ => g = f

/-- A write call on the file, as the integer it carries if any. -/
def Act.writes (f : File) : Act → Option (Option Int)
  | .write g buffer _ left => if g = f then some (carried buffer left) else none
  | _ => none

def writesTo (f : File) (acts : List Act) : List (Option Int) := acts.filterMap (Act.writes f)

/-- The write calls on a file whose bytes are looked at: the first of each two. The second
    finds the flag set and returns 0. -/
def accepted {α : Type} : List α → List α
  | w :: _ :: ws => w :: accepted ws
  | [w] => [w]
  | [] => []

/-- The integer of the last accepted write that carried one. -/
def lastAmount (f : File) (acts : List Act) : Int :=
  ((accepted (writesTo f acts)).reduceOption.getLast?).getD 0

theorem accepted_concat {α : Type} (ws : List α) (w : α) :
    accepted (ws ++ [w]) = if ws.length % 2 = 0 then accepted ws ++ [w] else accepted ws := by
  induction ws using accepted.induct with
  | case1 v u ws ih =>
      have hlen : (v :: u :: ws).length % 2 = ws.length % 2 := by
        rw [List.length_cons, List.length_cons]
        omega
      rw [hlen, List.cons_append, List.cons_append, accepted, accepted, ih]
      split <;> rfl
  | case2 v => rfl
  | case3 => rfl

/-- A call that is no write on the file leaves the amount and the write flag alone. -/
theorem View.next_other {f : File} {a : Act} (ha : a.writes f = none) (v : View) :
    (v.next f a).amount = v.amount ∧ (v.next f a).write = v.write := by
  unfold View.next
  cases a with
  | rate buf =>
      dsimp only
      split <;> exact ⟨rfl, rfl⟩
  | write g buffer length left =>
      have hg : g ≠ f := by
        intro hg
        unfold Act.writes at ha
        dsimp only at ha
        rw [if_pos hg] at ha
        cases ha
      dsimp only
      rw [if_pos hg]
      exact ⟨rfl, rfl⟩
  | read g left =>
      dsimp only
      split <;> exact ⟨rfl, rfl⟩

/-- A write call takes its integer if it finds the flag clear, and turns the flag. -/
theorem View.next_write {f : File} {a : Act} {w : Option Int} (ha : a.writes f = some w)
    (v : View) : (v.next f a).amount = (if v.write then v.amount else w.getD v.amount) ∧
      (v.next f a).write = !v.write := by
  unfold View.next
  cases a with
  | rate buf => cases ha
  | read g left => cases ha
  | write g buffer length left =>
      unfold Act.writes at ha
      dsimp only at ha ⊢
      split at ha
      · next hg =>
          cases ha
          rw [if_neg (not_not.mpr hg)]
          cases v.write <;> exact ⟨rfl, rfl⟩
      · cases ha

/-- The amount and the write flag of a file after a list of calls. -/
theorem view_foldl (f : File) (acts : List Act) :
    (acts.foldl (View.next f) ⟨0, 31, false, false⟩).amount = lastAmount f acts ∧
    (acts.foldl (View.next f) ⟨0, 31, false, false⟩).write =
      decide ((writesTo f acts).length % 2 = 1) := by
  induction acts using List.reverseRecOn with
  | nil => exact ⟨rfl, rfl⟩
  | append_singleton acts a ih =>
      obtain ⟨hamount, hflag⟩ := ih
      rw [List.foldl_concat]
      generalize acts.foldl (View.next f) ⟨0, 31, false, false⟩ = v at hamount hflag ⊢
      unfold lastAmount writesTo at *
      rw [List.filterMap_append]
      cases ha : a.writes f with
      | none =>
          obtain ⟨hsame, hkept⟩ := View.next_other ha v
          rw [hsame, hkept, List.filterMap_cons_none ha, List.filterMap_nil, List.append_nil]
          exact ⟨hamount, hflag⟩
      | some w =>
          obtain ⟨hnext, hturn⟩ := View.next_write ha v
          rw [hnext, hturn, List.filterMap_cons_some ha, List.filterMap_nil, accepted_concat,
            List.length_append, List.length_singleton]
          rcases Nat.mod_two_eq_zero_or_one (acts.filterMap (Act.writes f)).length with heven | hodd
          · rw [heven] at hflag
            have hnext : ((acts.filterMap (Act.writes f)).length + 1) % 2 = 1 := by omega
            rw [if_pos heven, hflag, hamount, List.reduceOption_append, hnext]
            refine ⟨?_, by decide⟩
            cases w <;> simp
          · rw [hodd] at hflag
            have hnext : ((acts.filterMap (Act.writes f)).length + 1) % 2 = 0 := by omega
            have hodd : ¬ (acts.filterMap (Act.writes f)).length % 2 = 0 := by omega
            rw [if_neg hodd, hflag, hamount, hnext]
            exact ⟨if_pos rfl, by decide⟩

theorem foldl_concerns (f : File) (acts : List Act) (v : View) :
    acts.foldl (View.next f) v = (acts.filter (Act.concerns f)).foldl (View.next f) v := by
  rw [List.foldl_filter]
  congr 1
  funext v a
  split
  · rfl
  · next ha =>
      cases a with
      | rate buf => exact absurd rfl ha
      | write g buffer length left => exact if_pos fun hg => ha (decide_eq_true hg)
      | read g left => exact if_pos fun hg => ha (decide_eq_true hg)

theorem view_run {m : List UInt8} (hm : m.length = BUFFER_SIZE) {acts : List Act} {s : State}
    (hrun : run step (State.loaded m) acts = some s) :
    s.proc_buffer.length = BUFFER_SIZE ∧
      ∀ f, s.view f = acts.foldl (View.next f) ⟨0, 31, false, false⟩ := by
  refine run_induct (C := fun _ _ => True) (fun acts s => s.proc_buffer.length = BUFFER_SIZE ∧
    ∀ f, s.view f = acts.foldl (View.next f) ⟨0, 31, false, false⟩) ?_ ?_ (allSteps_true _ _) hrun
  · exact ⟨hm, fun f => by cases f <;> rfl⟩
  · intro acts s a s' hs _ hstep
    refine ⟨(view_step hs.1 hstep .uah_to_eu).1, fun f => ?_⟩
    rw [(view_step hs.1 hstep f).2, hs.2 f, List.foldl_concat]

/-- In every state reached, a read of a file whose conversion does not fault returns 0 or
    delivers the conversion of the last amount accepted on that file at the current rate; and
    it answers the same after every other run that agrees on the calls the file notices. -/
theorem conversions_run {m : List UInt8} (hm : m.length = BUFFER_SIZE) {acts : List Act} {s : State}
    (hrun : run step (State.loaded m) acts = some s) (f : File) :
    (∀ n, converted f (lastAmount f acts) s.current_exchange_rate = some n →
      ∃ s' len bytes, proc_read f s 0 = some (s', len, bytes) ∧
        (len ≠ 0 → bytes = amountText (n.tdiv 100) (n.tmod 100) ∧ len = bytes.length)) ∧
    ∀ m' acts' s', m'.length = BUFFER_SIZE → run step (State.loaded m') acts' = some s' →
      acts'.filter (Act.concerns f) = acts.filter (Act.concerns f) →
      (proc_read f s' 0).map Prod.snd = (proc_read f s 0).map Prod.snd := by
  obtain ⟨hbuf, hview⟩ := view_run hm hrun
  refine ⟨fun n hn => ?_, fun m' acts' s' hm' hrun' hsame => ?_⟩
  · have hamount : (s.view f).amount = lastAmount f acts := by
      rw [hview f]
      exact (view_foldl f acts).1
    have hrate : (s.view f).rate = s.current_exchange_rate := rfl
    have hanswer := proc_read_eq hbuf f
    unfold View.answer at hanswer
    rw [hamount, hrate, hn, Option.map_some] at hanswer
    obtain ⟨⟨s', len, bytes⟩, hread, heq⟩ := Option.map_eq_some_iff.mp hanswer
    refine ⟨s', len, bytes, hread, fun hlen => ?_⟩
    split at heq
    · cases heq
      exact absurd rfl hlen
    · cases heq
      exact ⟨rfl, rfl⟩
  · obtain ⟨hbuf', hview'⟩ := view_run hm' hrun'
    rw [proc_read_eq hbuf' f, proc_read_eq hbuf f, hview' f, hview f, foldl_concerns f acts',
      foldl_concerns f acts, hsame]

/-- "100" and "7" written to the two files, and a rate of 50. -/
def twoAmounts : List Act :=
  [.write .uah_to_eu (49 :: 48 :: 48 :: List.replicate 13 0) 3 0,
    .write .eu_to_uah (55 :: List.replicate 15 0) 1 0, .rate [53, 48, 0]]

theorem conversions_run_two :
    ∃ s, run step (State.loaded (List.replicate 16 0)) twoAmounts = some s ∧
      ∃ s' len bytes, proc_read .uah_to_eu s 0 = some (s', len, bytes) ∧
        (len ≠ 0 → bytes = amountText 2 0 ∧ len = bytes.length) := by
  obtain ⟨s, hs⟩ := Option.isSome_iff_exists.mp (by decide +kernel :
    (run step (State.loaded (List.replicate 16 0)) twoAmounts).isSome = true)
  have hrate : (run step (State.loaded (List.replicate 16 0)) twoAmounts).map
      State.current_exchange_rate = some 50 := by decide +kernel
  rw [hs] at hrate
  have hn : converted .uah_to_eu (lastAmount .uah_to_eu twoAmounts) s.current_exchange_rate =
      some 200 := by
    rw [Option.some.inj hrate]
    decide +kernel
  exact ⟨s, hs, (conversions_run List.length_replicate hs .uah_to_eu).1 200 hn⟩

end KernelBasecamp.Currency
