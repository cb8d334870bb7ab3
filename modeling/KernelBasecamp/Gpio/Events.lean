/-
  Which events `eventdetected` reports, and which pins are watched for falling edges.

  Clearing writes back the whole word of a bank, so an event is lost when an event of any other pin
  of the bank is fetched before it (`events_run`). Asking for falling edges replaces the word, so
  in each bank the pin that asked last has the watch alone (`falling_run`).
-/
import KernelBasecamp.Gpio.Runs

namespace KernelBasecamp.Gpio

open Lib

variable {d : Device} {g h : Nat} {fourth : Bool}

/-! ## Events -/

/-- The call clears the events of the bank of its pin. -/
def Action.clears (d : Device) : Action → Bool
  | .clear_event_detect _ => true
  | .eventdetected h => d.event h
  | .set_rising_event _ _ => true
  | .set_falling_event _ _ => true
  | .set_high_event _ _ => true
  | .set_low_event _ _ => true
  | _ => false

/-- The call clears the events of the pin `g`. -/
def Clears (d : Device) (g : Nat) (a : Action) : Prop := g / 32 = a.gpio / 32 ∧ a.clears d = true

instance (d : Device) (g : Nat) (a : Action) : Decidable (Clears d g a) :=
  inferInstanceAs (Decidable (_ ∧ _))

/-- No call of a run clears the events of the pin `g`. -/
def Undisturbed (g : Nat) : Device → List Action → Prop
  | _, [] => True
  | d, a :: actions => ¬ Clears d g a ∧ Undisturbed g (d.step a) actions

/-- The pin does something that it is watched for: it changes its level, or after a call that
    clears its events it is still on a level. -/
def raised (d : Device) (g : Nat) (a : Action) : Bool :=
  let old := d.pin g
  let new := (d.step a).pin g
  new.sees (if Clears d g a then new.level else old.level) new.level

namespace Pin

theorem step_event (p : Pin) {a : PinAction} (ha : (p.set a).event = p.event) :
    (p.step a).event = (p.event || (p.step a).sees p.level (p.step a).level) := by
  rw [← ha]
  rfl

theorem Settled.event {p : Pin} (hp : p.Settled) :
    p.event = (p.sees p.level p.level || p.event) := by
  cases hsees : p.sees p.level p.level with
  | false => rw [Bool.false_or]
  | true => rw [hp hsees, Bool.or_true]

theorem step_clear_event (p : Pin) :
    (p.step .clear).event = (p.step .clear).sees (p.step .clear).level (p.step .clear).level :=
  Bool.false_or _

end Pin

namespace Device

theorem run_own_event {p : Pin} (hp : p.Settled) {b : PinAction} (hb : (p.set b).event = p.event)
    (g h : Nat) : (p.run (own g h b)).event =
      ((p.run (own g h b)).sees p.level (p.run (own g h b)).level || p.event) := by
  rw [run_own]
  split
  · rw [Pin.step_event _ hb, Bool.or_comm]
  · exact hp.event

/-- A call that clears nothing, and is a step of its pin after one that changes neither the level
    nor the flag. -/
theorem events_of_own {p : Pin} (hp : p.Settled) {a : Action} {b : PinAction}
    (ha : a.clears d = false) (hb : (p.set b).event = p.event) (hlevel : p.level = (d.pin g).level)
    (hevent : p.event = d.event g) (hpin : (d.step a).pin g = p.run (own g a.gpio b)) :
    (d.step a).event g = (raised d g a || d.event g && !decide (Clears d g a)) := by
  have hclears : ¬ Clears d g a := fun h => Bool.false_ne_true (ha.symm.trans h.2)
  have hflag : (d.step a).event g = ((d.step a).pin g).event := rfl
  unfold raised
  dsimp only
  rw [hflag, hpin, if_neg hclears, decide_eq_false hclears, Bool.not_false, Bool.and_true,
    ← hlevel, ← hevent]
  exact run_own_event hp hb g a.gpio

/-- A call that ends with a clear of its bank. -/
theorem events_of_bank {a : Action} (as : List PinAction) (hp : (d.pin g).Settled)
    (ha : a.clears d = true) (hother : g / 32 ≠ a.gpio / 32 → (d.pin g).run as = d.pin g)
    (hpin : (d.step a).pin g = (d.pin g).run (as ++ bank g a.gpio .clear)) :
    (d.step a).event g = (raised d g a || d.event g && !decide (Clears d g a)) := by
  have hevent : (d.step a).event g = ((d.step a).pin g).event := rfl
  have hold : d.event g = (d.pin g).event := rfl
  unfold raised
  dsimp only
  rw [hevent, hold, hpin, Pin.run_append, run_bank]
  by_cases hbank : g / 32 = a.gpio / 32
  · have hclears : Clears d g a := ⟨hbank, ha⟩
    rw [if_pos hbank, if_pos hclears, decide_eq_true hclears, Bool.not_true, Bool.and_false,
      Bool.or_false]
    exact Pin.step_clear_event _
  · have hclears : ¬ Clears d g a := fun h => hbank h.1
    rw [if_neg hbank, if_neg hclears, decide_eq_false hclears, Bool.not_false, Bool.and_true,
      hother hbank]
    exact hp.event

/-- A call raises the flag of a pin, keeps it or clears it. -/
theorem events_step (hd : Sound fourth d) (hg : g < 54) {a : Action} (ha : a.gpio < 54) :
    (d.step a).event g = (raised d g a || d.event g && !decide (Clears d g a)) := by
  have hp := hd.settled g hg
  have hpin := pin_step hd hg ha
  have hown : ∀ h b, g / 32 ≠ h / 32 → (d.pin g).run (own g h b) = d.pin g := by
    intro h b hother
    rw [run_own, if_neg fun hgh => hother (congrArg (· / 32) hgh)]
  cases a with
  | clear_event_detect h => exact events_of_bank [] hp rfl (fun _ => rfl) hpin
  | eventdetected h =>
      change (d.step (.eventdetected h)).pin g =
        (d.pin g).run (if d.event h then bank g h .clear else []) at hpin
      by_cases hevent : d.event h = true
      · rw [if_pos hevent] at hpin
        exact events_of_bank [] hp hevent (fun _ => rfl) hpin
      · -- nothing to fetch
        rw [if_neg hevent] at hpin
        have hflag : (d.step (.eventdetected h)).event g =
          ((d.step (.eventdetected h)).pin g).event := rfl
        have hclears : ¬ Clears d g (.eventdetected h) := fun h => hevent h.2
        unfold raised
        dsimp only
        rw [hflag, hpin, if_neg hclears, decide_eq_false hclears, Bool.not_false, Bool.and_true]
        exact hp.event
  | set_rising_event h enable | set_high_event h enable | set_low_event h enable =>
      exact events_of_bank _ hp rfl (hown h _) hpin
  | set_falling_event h enable =>
      refine events_of_bank _ hp rfl (fun hother => ?_) hpin
      change g / 32 ≠ h / 32 at hother
      split
      · rw [run_bank, if_neg hother]
      · exact hown h _ hother
  | set_pullupdn h pud => exact events_of_own hp rfl rfl rfl rfl hpin
  | setup_gpio h direction pud =>
      -- the resistor first, which nothing is watched for
      change (d.step (.setup_gpio h direction pud)).pin g = (d.pin g).run
        (own g h (.pull (pullOf pud)) ++ own g h (.mode (modeOf direction))) at hpin
      rw [Pin.run_append] at hpin
      have hpull : (d.pin g).run (own g h (.pull (pullOf pud))) =
          if g = h then (d.pin g).set (.pull (pullOf pud)) else d.pin g := by
        rw [run_own]
        split
        · exact congrArg (fun p : Pin => p.set (.pull (pullOf pud))) (Pin.detect_self hp)
        · rfl
      rw [hpull] at hpin
      refine events_of_own ?_ rfl rfl ?_ ?_ hpin
      · split
        · exact hp
        · exact hp
      · split <;> rfl
      · split <;> rfl
  | output_gpio h value => exact events_of_own hp rfl rfl rfl rfl hpin
  | input h b => exact events_of_own hp rfl rfl rfl rfl hpin

theorem event_run (hd : Sound fourth d) {actions : List Action}
    (hactions : ∀ a ∈ actions, a.gpio < 54) (hg : g < 54) :
    (d.run actions).event g = true ↔ (d.event g = true ∧ Undisturbed g d actions) ∨
      ∃ before a after, actions = before ++ a :: after ∧ raised (d.run before) g a = true ∧
        Undisturbed g ((d.run before).step a) after := by
  induction actions generalizing d with
  | nil =>
      refine ⟨fun h => .inl ⟨h, trivial⟩, ?_⟩
      rintro (⟨h, -⟩ | ⟨before, a, after, hnil, -⟩)
      · exact h
      · exact absurd hnil.symm (List.append_ne_nil_of_right_ne_nil _ (List.cons_ne_nil _ _))
  | cons a actions ih =>
      obtain ⟨ha, hrest⟩ := List.forall_mem_cons.mp hactions
      have hnext := ih (hd.step ha) hrest
      rw [events_step hd hg ha, Bool.or_eq_true, Bool.and_eq_true, Bool.not_eq_true',
        decide_eq_false_iff_not] at hnext
      refine hnext.trans ⟨?_, ?_⟩
      · rintro (⟨hraised | ⟨hevent, hkept⟩, hafter⟩ | ⟨before, b, after, rfl, hraised, hafter⟩)
        · exact .inr ⟨[], a, actions, rfl, hraised, hafter⟩
        · exact .inl ⟨hevent, hkept, hafter⟩
        · exact .inr ⟨a :: before, b, after, rfl, hraised, hafter⟩
      · rintro (⟨hevent, hkept, hafter⟩ | ⟨before, b, after, heq, hraised, hafter⟩)
        · exact .inl ⟨.inr ⟨hevent, hkept⟩, hafter⟩
        · cases before with
          | nil =>
              obtain ⟨rfl, rfl⟩ := List.cons.inj heq
              exact .inl ⟨.inl hraised, hafter⟩
          | cons b' before =>
              obtain ⟨rfl, rfl⟩ := List.cons.inj heq
              exact .inr ⟨before, b, after, rfl, hraised, hafter⟩

/-- After any run `eventdetected` reports exactly the events after which no call has cleared the
    bank of the pin. -/
theorem events_run (hd : Sound fourth d) {actions : List Action}
    (hactions : ∀ a ∈ actions, a.gpio < 54) (hg : g < 54) :
    ((d.run actions).eventdetected g).1 ≠ 0#32 ↔ (d.event g = true ∧ Undisturbed g d actions) ∨
      ∃ before a after, actions = before ++ a :: after ∧ raised (d.run before) g a = true ∧
        Undisturbed g ((d.run before).step a) after :=
  (eventdetected_ne_zero hg).trans (event_run hd hactions hg)

/-- A rising edge, an event of the same bank that is not fetched, and one of the other bank that
    is. -/
theorem events_run_edge :
    (((reset true).run [.set_rising_event 23 1, .set_rising_event 40 1, .set_rising_event 18 1,
      .input 18 true, .input 23 true, .input 40 true, .eventdetected 40]).eventdetected 18).1 ≠
        0#32 :=
  (events_run (sound_reset true) (by decide) (g := 18) (by decide)).mpr
    (.inr ⟨[.set_rising_event 23 1, .set_rising_event 40 1, .set_rising_event 18 1], .input 18 true,
      [.input 23 true, .input 40 true, .eventdetected 40], rfl, by decide +kernel,
      by decide +kernel, by decide +kernel, by decide +kernel, trivial⟩)

/-- Fetching the event of pin 23 loses that of pin 18. -/
example : (((reset true).run [.set_rising_event 23 1, .set_rising_event 18 1, .input 18 true,
    .input 23 true, .eventdetected 23]).eventdetected 18).1 = 0#32 := by decide +kernel

/-! ## Falling edges -/

theorem falling_own (p : Pin) (g h : Nat) {a : PinAction} (ha : (p.set a).falling = p.falling) :
    (p.run (own g h a)).falling = p.falling := by
  rw [run_own]
  split
  · exact ha
  · rfl

theorem falling_clear (p : Pin) (g h : Nat) : (p.run (bank g h .clear)).falling = p.falling := by
  rw [run_bank]
  split <;> rfl

theorem falling_step (hd : Sound fourth d) (hg : g < 54) {a : Action} (ha : a.gpio < 54)
    (hother : ∀ h enable, a ≠ .set_falling_event h enable) :
    ((d.step a).pin g).falling = (d.pin g).falling := by
  rw [pin_step hd hg ha]
  generalize d.pin g = p
  cases a with
  | set_falling_event h enable => exact absurd rfl (hother h enable)
  | clear_event_detect h => exact falling_clear p g h
  | eventdetected h =>
      change (p.run (if d.event h then bank g h .clear else [])).falling = _
      by_cases hevent : d.event h = true
      · rw [if_pos hevent]
        exact falling_clear p g h
      · rw [if_neg hevent]
        rfl
  | set_rising_event h enable | set_high_event h enable | set_low_event h enable =>
      unfold share
      rw [Pin.run_append, falling_clear]
      exact falling_own p g h rfl
  | set_pullupdn h pud | output_gpio h value | input h b => exact falling_own p g h rfl
  | setup_gpio h direction pud =>
      unfold share
      rw [Pin.run_append, falling_own _ _ _ rfl]
      exact falling_own p g h rfl

theorem falling_step_falling (hd : Sound fourth d) (hg : g < 54) (hh : h < 54) (enable : Int) :
    ((d.step (.set_falling_event h enable)).pin g).falling =
      if enable ≠ 0 then if g / 32 = h / 32 then decide (g = h) else (d.pin g).falling
      else if g = h then false else (d.pin g).falling := by
  rw [pin_step hd hg (a := .set_falling_event h enable) hh]
  unfold share
  rw [Pin.run_append, falling_clear]
  by_cases hon : enable ≠ 0
  · rw [if_pos hon, if_pos hon, run_bank]
    split <;> rfl
  · rw [if_neg hon, if_neg hon, run_own]
    split <;> rfl

/-- When no other pin of the bank asks, only switching it off ends a watch. -/
theorem falling_kept (hd : Sound fourth d) {actions : List Action}
    (hactions : ∀ a ∈ actions, a.gpio < 54) (hg : g < 54)
    (hoff : ∀ k e, .set_falling_event k e ∈ actions → g / 32 = k / 32 → e = 0) :
    ((d.run actions).pin g).falling = true ↔
      (d.pin g).falling = true ∧ .set_falling_event g 0 ∉ actions := by
  induction actions generalizing d with
  | nil => exact (and_iff_left List.not_mem_nil).symm
  | cons a actions ih =>
      obtain ⟨ha, hrest⟩ := List.forall_mem_cons.mp hactions
      have hnext := ih (hd.step ha) hrest fun k e hk => hoff k e (List.mem_cons_of_mem _ hk)
      refine hnext.trans ?_
      rw [List.mem_cons, not_or, ← and_assoc]
      refine and_congr_left fun _ => ?_
      by_cases hfalling : ∃ k e, a = .set_falling_event k e
      · obtain ⟨k, e, rfl⟩ := hfalling
        change k < 54 at ha
        rw [falling_step_falling hd hg ha]
        by_cases hbank : g / 32 = k / 32
        · obtain rfl : e = 0 := hoff k e List.mem_cons_self hbank
          rw [if_neg (not_not_intro rfl)]
          by_cases hgk : g = k
          · subst hgk
            rw [if_pos rfl]
            exact iff_of_false Bool.false_ne_true fun h => h.2 rfl
          · rw [if_neg hgk, and_iff_left]
            exact fun h => hgk (Action.set_falling_event.inj h).1
        · have hgk : g ≠ k := fun h => hbank (congrArg (· / 32) h)
          rw [if_neg hbank, if_neg hgk, ite_self, and_iff_left]
          exact fun h => hgk (Action.set_falling_event.inj h).1
      · rw [falling_step hd hg ha fun k e h => hfalling ⟨k, e, h⟩, and_iff_left]
        exact fun h => hfalling ⟨g, 0, h.symm⟩

/-- In a bank only the pin that asked last is watched for falling edges, as long as it has not
    been switched off. -/
theorem falling_run (hd : Sound fourth d) {before after : List Action} {enable : Int}
    (hbefore : ∀ a ∈ before, a.gpio < 54) (hafter : ∀ a ∈ after, a.gpio < 54) (hh : h < 54)
    (hon : enable ≠ 0)
    (hlast : ∀ k e, .set_falling_event k e ∈ after → k / 32 = h / 32 → e = 0)
    (hg : g < 54) (hbank : g / 32 = h / 32) :
    ((d.run (before ++ .set_falling_event h enable :: after)).pin g).falling = true ↔
      g = h ∧ .set_falling_event h 0 ∉ after := by
  have hd₁ : Sound fourth (d.run (before ++ [.set_falling_event h enable])) := by
    refine hd.run fun a ha => ?_
    rcases List.mem_append.mp ha with ha | ha
    · exact hbefore a ha
    · rw [List.mem_singleton.mp ha]
      exact hh
  have hstart : ((d.run (before ++ [.set_falling_event h enable])).pin g).falling =
      decide (g = h) := by
    have hrun : d.run (before ++ [.set_falling_event h enable]) =
        (d.run before).step (.set_falling_event h enable) := List.foldl_concat ..
    rw [hrun, falling_step_falling (hd.run hbefore) hg hh, if_pos hon, if_pos hbank]
  have hrun : d.run (before ++ .set_falling_event h enable :: after) =
      (d.run (before ++ [.set_falling_event h enable])).run after := by
    unfold run
    rw [← List.foldl_append, List.append_assoc]
    rfl
  rw [hrun]
  rw [falling_kept hd₁ hafter hg fun k e hk hgk => hlast k e hk (hgk.symm.trans hbank), hstart,
    decide_eq_true_iff]
  exact and_congr_right fun hgh => by rw [hgh]

/-- Pin 18 has asked first. -/
theorem falling_run_second :
    ((((reset true).run ([.set_falling_event 18 1] ++ .set_falling_event 23 1 :: [])).pin
      18).falling = true ↔ 18 = 23 ∧ .set_falling_event 23 0 ∉ ([] : List Action)) ∧
    ((((reset true).run ([.set_falling_event 18 1] ++ .set_falling_event 23 1 :: [])).pin
      23).falling = true ↔ 23 = 23 ∧ .set_falling_event 23 0 ∉ ([] : List Action)) := by
  have hsound := sound_reset true
  have hnone : ∀ k e, Action.set_falling_event k e ∈ ([] : List Action) →
      k / 32 = 23 / 32 → e = 0 :=
    fun _ _ h => absurd h List.not_mem_nil
  exact ⟨falling_run hsound (by decide) (by decide) (by decide) (by decide) hnone (by decide) rfl,
    falling_run hsound (by decide) (by decide) (by decide) (by decide) hnone (by decide) rfl⟩

end Device

end KernelBasecamp.Gpio
