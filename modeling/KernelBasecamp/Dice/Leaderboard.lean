/-
  The leaderboard of the dice game over whole games.

  `Played` says what one round makes of the players: they are the same ones, those with the
  highest sum of this round have one win more and are otherwise what they were, the others are
  left alone, and the list is ranked by wins and among equals by this round's sum, with ties in
  their old order.

  * `playRound_spec`: one round, while the win counts stay below 2^31. From there on the
    difference of two counts no longer fits an int and the comparison is no order.
  * `leaderboard_run`: every round of a game of fewer than 2^31 rounds, by `run_wins`, which
    bounds the counts by the rounds played.
-/
import KernelBasecamp.Dice.Game

namespace KernelBasecamp.Dice

open Lib

/-- What a round makes of the players `before`, `m` being its highest sum. -/
structure Played (before : List Player) (rand : Nat → Nat) (after : List Player) (m : Int) :
    Prop where
  kept : (roll_round before rand).map (fun p => (p.name, p.win_count)) =
    before.map fun p => (p.name, p.win_count)
  attained : ∃ p ∈ roll_round before rand, roll_sum p.current_roll = m
  greatest : ∀ p ∈ roll_round before rand, roll_sum p.current_roll ≤ m
  /-- the list holds the same players -/
  names : (after.map Player.name).Perm (before.map Player.name)
  same : after.Perm ((roll_round before rand).map (update_leaderboard m))
  wins : ∀ p ∈ roll_round before rand, (update_leaderboard m p).win_count.toNat =
    p.win_count.toNat + if roll_sum p.current_roll = m then 1 else 0
  record : ∀ p ∈ roll_round before rand, (update_leaderboard m p).name = p.name ∧
    (update_leaderboard m p).current_roll = p.current_roll
  others : ∀ p ∈ roll_round before rand, roll_sum p.current_roll ≠ m → update_leaderboard m p = p
  ranked : after.Pairwise fun p q => q.win_count < p.win_count ∨
    q.win_count = p.win_count ∧ roll_sum q.current_roll ≤ roll_sum p.current_roll
  /-- ties keep the order of `before`, which a roll does not change -/
  stable : ∀ w s,
    after.filter (fun p => p.win_count = w ∧ roll_sum p.current_roll = s) =
      ((roll_round before rand).map (update_leaderboard m)).filter
        fun p => p.win_count = w ∧ roll_sum p.current_roll = s

/-! ## The comparisons -/

theorem compares_rolls (l : List Player) :
    ComparesDown sort_players_by_rolls (fun p => roll_sum p.current_roll) l := by
  refine ⟨fun a _ b _ => ?_, fun a _ b _ => ?_⟩ <;>
  · unfold sort_players_by_rolls
    omega

/-- The difference of two counts below 2^31 is the exact one. -/
theorem wrapped_sub {x y : UInt32} (hx : x.toNat < 2 ^ 31) (hy : y.toNat < 2 ^ 31) :
    (x - y).toInt32.toInt = (x.toNat : Int) - y.toNat := by
  have hint : ∀ z : UInt32, z.toNat < 2 ^ 31 → z.toBitVec.toInt = z.toNat := by
    intro z hz
    rw [BitVec.toInt_eq_toNat_of_lt (by rw [UInt32.toNat_toBitVec]; omega), UInt32.toNat_toBitVec]
  change (x.toBitVec - y.toBitVec).toInt = _
  rw [BitVec.toInt_sub, hint x hx, hint y hy]
  exact Int.bmod_eq_of_le_mul_two (by omega) (by omega)

theorem compares_wins {l : List Player} (hl : ∀ p ∈ l, p.win_count.toNat < 2 ^ 31) :
    ComparesDown sort_players_by_wins (fun p => p.win_count.toNat) l := by
  refine ⟨fun a ha b hb => ?_, fun a ha b hb => ?_⟩ <;>
  · unfold sort_players_by_wins
    rw [wrapped_sub (hl b hb) (hl a ha)]
    omega

/-! ## One round -/

theorem roll_round_ne_nil {players : List Player} (h : players ≠ []) (rand : Nat → Nat) :
    roll_round players rand ≠ [] := by
  unfold roll_round
  rwa [ne_eq, List.mapIdx_eq_nil_iff]

/-- A bound on the counts is one on the counts after the roll. -/
theorem roll_round_wins {players : List Player} {n : Nat}
    (h : ∀ p ∈ players, p.win_count.toNat < n) (rand : Nat → Nat) :
    ∀ p ∈ roll_round players rand, p.win_count.toNat < n := by
  intro p hp
  have hmem : (p.name, p.win_count) ∈ players.map fun p => (p.name, p.win_count) := by
    rw [← roll_round_kept players rand]
    exact List.mem_map_of_mem hp
  obtain ⟨q, hq, heq⟩ := List.mem_map.mp hmem
  rw [← (Prod.mk.inj heq).2]
  exact h q hq

theorem update_leaderboard_wins (m : Int) {p : Player} (h : p.win_count.toNat + 1 < 2 ^ 32) :
    (update_leaderboard m p).win_count.toNat =
      p.win_count.toNat + if roll_sum p.current_roll = m then 1 else 0 := by
  unfold update_leaderboard
  dsimp only
  rw [UInt32.toNat_add]
  split
  · exact Nat.mod_eq_of_lt h
  · exact Nat.mod_eq_of_lt (Nat.lt_of_succ_lt h)

section

variable {g_list_sort : (Player → Player → Int) → List Player → List Player}
variable {players : List Player}

/-- After the first sort the head has the highest sum. -/
theorem head_greatest {l l' : List Player} {p : Player}
    (h : SortedDown (fun p => roll_sum p.current_roll) l l') (hp : l'.head? = some p) :
    p ∈ l ∧ ∀ q ∈ l, roll_sum q.current_roll ≤ roll_sum p.current_roll := by
  cases l' with
  | nil => cases hp
  | cons r rest =>
      cases hp
      refine ⟨h.perm.subset List.mem_cons_self, fun q hq => ?_⟩
      rcases List.mem_cons.mp (h.perm.symm.subset hq) with rfl | hrest
      · exact Int.le_refl _
      · exact (List.pairwise_cons.mp h.sorted).1 q hrest

theorem playRound_spec (hsort : StableSorting g_list_sort) (hne : players ≠ [])
    (hwins : ∀ p ∈ players, p.win_count.toNat + 1 < 2 ^ 31) (rand : Nat → Nat) :
    ∃ after m, playRound g_list_sort players rand = some after ∧ Played players rand after m := by
  have hrolls := hsort.sortedDown (compares_rolls (roll_round players rand))
  have hhead : (g_list_sort sort_players_by_rolls (roll_round players rand)).head? ≠ none := by
    rw [ne_eq, List.head?_eq_none_iff]
    intro hnil
    rw [hnil] at hrolls
    exact roll_round_ne_nil hne rand (List.nil_perm.mp hrolls.perm)
  obtain ⟨p, hp⟩ := Option.ne_none_iff_exists'.mp hhead
  obtain ⟨hpmem, hgreatest⟩ := head_greatest hrolls hp
  have hbound : ∀ q ∈ roll_round players rand, q.win_count.toNat < 2 ^ 31 - 1 :=
    roll_round_wins (fun q hq => by have := hwins q hq; omega) rand
  have hcount : ∀ q ∈ roll_round players rand,
      (update_leaderboard (roll_sum p.current_roll) q).win_count.toNat = q.win_count.toNat +
        if roll_sum q.current_roll = roll_sum p.current_roll then 1 else 0 := by
    intro q hq
    have hq := hbound q hq
    exact update_leaderboard_wins _ (by omega)
  have hscored := hrolls.map (f := update_leaderboard (roll_sum p.current_roll)) fun q => rfl
  have hbelow : ∀ q ∈ (g_list_sort sort_players_by_rolls (roll_round players rand)).map
      (update_leaderboard (roll_sum p.current_roll)), q.win_count.toNat < 2 ^ 31 := by
    intro q hq
    obtain ⟨r, hr, rfl⟩ := List.mem_map.mp hq
    have hr := hrolls.perm.subset hr
    have hrbound := hbound r hr
    rw [hcount r hr]
    split <;> omega
  have hranked := hsort.sortedDown (compares_wins hbelow)
  have hsame := hranked.perm.trans hscored.perm
  have hnames := hsame.map Player.name
  rw [update_leaderboard_names, roll_round_names] at hnames
  refine ⟨_, roll_sum p.current_roll, by unfold playRound; dsimp only; rw [hp],
    roll_round_kept players rand, ⟨p, hpmem, rfl⟩, hgreatest, hnames, hsame, hcount,
    fun q _ => ⟨rfl, rfl⟩, fun q _ => update_leaderboard_of_ne, ?_, fun w s => ?_⟩
  · refine (hscored.lex hranked).imp fun hab => ?_
    rcases hab with hlt | ⟨heq, hle⟩
    · exact Or.inl (Int.ofNat_lt.mp hlt)
    · exact Or.inr ⟨UInt32.toNat_inj.mp (Int.ofNat_inj.mp heq), hle⟩
  · have hfilter := hscored.filter_lex hranked w.toNat s
    simpa only [Int.ofNat_inj, UInt32.toNat_inj] using hfilter

/-! ## Whole games -/

theorem Played.ne_nil {rand : Nat → Nat} {after : List Player} {m : Int}
    (h : Played players rand after m) : after ≠ [] := by
  rintro rfl
  obtain ⟨p, hp, _⟩ := h.attained
  have hnil := List.map_eq_nil_iff.mp (List.nil_perm.mp h.same)
  rw [hnil] at hp
  cases hp

/-- A round adds at most one to every count. -/
theorem Played.wins_lt {rand : Nat → Nat} {after : List Player} {m : Int}
    (h : Played players rand after m) {n : Nat} (hn : ∀ p ∈ players, p.win_count.toNat < n) :
    ∀ p ∈ after, p.win_count.toNat < n + 1 := by
  intro p hp
  obtain ⟨q, hq, rfl⟩ := List.mem_map.mp (h.same.subset hp)
  have hlt := roll_round_wins hn rand q hq
  rw [h.wins q hq]
  split <;> omega

/-- After any number of rounds there are still `k` wins to go before 2^31. -/
theorem run_wins (hsort : StableSorting g_list_sort) {rounds : List (Nat → Nat)} {k : Nat}
    (hne : players ≠ [])
    (hwins : ∀ p ∈ players, p.win_count.toNat + (rounds.length + k) < 2 ^ 31) :
    ∃ s, run (playRound g_list_sort) players rounds = some s ∧ s ≠ [] ∧
      ∀ p ∈ s, p.win_count.toNat + k < 2 ^ 31 := by
  induction rounds generalizing players with
  | nil =>
      refine ⟨players, rfl, hne, fun p hp => ?_⟩
      have hp := hwins p hp
      rwa [List.length_nil, Nat.zero_add] at hp
  | cons rand rounds ih =>
      have hlen : (rand :: rounds).length = rounds.length + 1 := rfl
      have hroom : ∀ p ∈ players, p.win_count.toNat + 1 < 2 ^ 31 := by
        intro p hp
        have hp := hwins p hp
        omega
      obtain ⟨after, m, hplay, hplayed⟩ := playRound_spec hsort hne hroom rand
      have hnext : ∀ p ∈ after, p.win_count.toNat + (rounds.length + k) < 2 ^ 31 := by
        intro p hp
        have hn : ∀ q ∈ players, q.win_count.toNat < 2 ^ 31 - (rounds.length + k) - 1 := by
          intro q hq
          have hq := hwins q hq
          omega
        have hlt := hplayed.wins_lt hn p hp
        obtain ⟨q, hq⟩ := List.exists_mem_of_ne_nil players hne
        have hq := hwins q hq
        omega
      obtain ⟨s, hrun, hs⟩ := ih hplayed.ne_nil hnext
      refine ⟨s, ?_, hs⟩
      rw [run_cons, hplay, Option.bind_some, hrun]

/-- A game whose counts cannot reach 2^31: whatever the rounds so far, the next one is played
    without a fault and makes of the players what `Played` says. -/
theorem leaderboard_run (hsort : StableSorting g_list_sort) (hne : players ≠ [])
    {rounds : List (Nat → Nat)}
    (hwins : ∀ p ∈ players, p.win_count.toNat + (rounds.length + 1) < 2 ^ 31)
    (rand : Nat → Nat) : ∃ before after m,
      run (playRound g_list_sort) players rounds = some before ∧
      playRound g_list_sort before rand = some after ∧ Played before rand after m := by
  obtain ⟨before, hrun, hbefore, hroom⟩ := run_wins hsort hne hwins
  obtain ⟨after, m, hplay, hplayed⟩ := playRound_spec hsort hbefore hroom rand
  exact ⟨before, after, m, hrun, hplay, hplayed⟩

end

/-- Four new players after one round of equal dice. -/
theorem leaderboard_run_four : ∃ before after m,
    run (playRound fun cmp l => l.mergeSort fun a b => decide (cmp a b ≤ 0))
      (create_player_list 4) [fun _ => 3] = some before ∧
    playRound (fun cmp l => l.mergeSort fun a b => decide (cmp a b ≤ 0)) before (fun i => i) =
      some after ∧ Played before (fun i => i) after m :=
  leaderboard_run stableSorting_mergeSort (by decide) (by decide) _

end KernelBasecamp.Dice
