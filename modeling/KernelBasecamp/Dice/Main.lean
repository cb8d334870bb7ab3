/-
  `main` of the dice game (dice.c), from its argument to its exit.

  `argument` is what `atoi` makes of `argv[1]`, if there is one. `getc i` is the character read
  after round `i`; at its end `stdin` goes on returning EOF, which is no 'q'. `rand i` are the
  results of `rand` in round `i`. Of the output there are the lines of `print_players_rolls`.

  Of `g_list_sort` it is only asked that it permutes the list, whatever the comparison, so the
  number of rounds is not bounded here.

  `main_spec`: for 1 to `MAX_PLAYERS` players `main` goes on up to the first 'q' and then frees
  each player once; for any other number it dereferences the empty list in its first round.
-/
import KernelBasecamp.Dice.Game
import KernelBasecamp.Lib.Resources

namespace KernelBasecamp.Dice

open Lib

def faces : List String := ["⚀", "⚁", "⚂", "⚃", "⚄", "⚅"]

/-- `faces[roll - 1]`; `none` outside of the array. -/
def face (roll : Int) : Option String :=
  if 1 ≤ roll then faces[(roll - 1).toNat]? else none

def print_players_rolls (p : Player) : Option String := do
  let first ← face p.current_roll.1
  let second ← face p.current_roll.2
  some (p.name ++ " (" ++ toString p.win_count ++ "): " ++ first ++ " " ++ second ++ "\n")

/-- The body of the loop, with what it prints. -/
def mainRound (g_list_sort : (Player → Player → Int) → List Player → List Player)
    (players : List Player) (rand : Nat → Nat) : Option (List String × List Player) := do
  let lines ← (roll_round players rand).mapM print_players_rolls
  let players ← playRound g_list_sort players rand
  some (lines, players)

/-- What is made and freed for a player: its record and its copy of the name. -/
def created (players : List Player) : List (Event String) := players.map fun p => .acquire p.name

def destroy_player_list (players : List Player) : List (Event String) :=
  players.map fun p => .release p.name

/-- How far `main` has come. -/
inductive Exit where
  | crashed
  | running (players : List Player)
  /-- it has returned 0; what has been made and freed, and what has been printed -/
  | returned (log : List (Event String)) (lines : List String)
  deriving DecidableEq, Repr

/-- `do … while (getc(stdin) != 'q')` from round `i` on, for at most `fuel` rounds. -/
def mainLoop (g_list_sort : (Player → Player → Int) → List Player → List Player)
    (getc : Nat → Int) (rand : Nat → Nat → Nat) (log : List (Event String)) :
    Nat → Nat → List String → List Player → Exit
  | 0, _, _, players => .running players
  | fuel + 1, i, lines, players =>
      match mainRound g_list_sort players (rand i) with
      | none => .crashed
      | some (more, players) =>
          if getc i ≠ 'q'.toNat then
            mainLoop g_list_sort getc rand log fuel (i + 1) (lines ++ more) players
          else .returned (log ++ destroy_player_list players) (lines ++ more)

def main (g_list_sort : (Player → Player → Int) → List Player → List Player)
    (getc : Nat → Int) (rand : Nat → Nat → Nat) (argument : Option Int) (fuel : Nat) : Exit :=
  let players_count := argument.getD 4
  let players := create_player_list players_count
  mainLoop g_list_sort getc rand (created players) fuel 0 [] players

/-! ## One round -/

theorem face_roll_dice (n : Nat) : ∃ f, face (roll_dice n) = some f := by
  have hlt : n % MAX_ROLL < faces.length := Nat.mod_lt _ (by decide)
  have hone : (1 : Int) ≤ roll_dice n := by
    unfold roll_dice
    omega
  refine ⟨faces[n % MAX_ROLL], ?_⟩
  unfold face
  rw [if_pos hone, show (roll_dice n - 1).toNat = n % MAX_ROLL by unfold roll_dice; omega]
  exact List.getElem?_eq_getElem hlt

theorem mapM_of_forall {α β : Type} {f : α → Option β} {l : List α}
    (h : ∀ a ∈ l, ∃ b, f a = some b) : ∃ bs, l.mapM f = some bs := by
  induction l with
  | nil => exact ⟨[], rfl⟩
  | cons a l ih =>
      obtain ⟨b, hb⟩ := h a List.mem_cons_self
      obtain ⟨bs, hbs⟩ := ih fun c hc => h c (List.mem_cons_of_mem a hc)
      refine ⟨b :: bs, ?_⟩
      rw [List.mapM_cons, hb, Option.bind_eq_bind, Option.bind_some, hbs]
      rfl

/-- The faces printed are in the array. -/
theorem print_roll_round (players : List Player) (rand : Nat → Nat) :
    ∃ lines, (roll_round players rand).mapM print_players_rolls = some lines := by
  refine mapM_of_forall fun p hp => ?_
  obtain ⟨i, hi⟩ := List.mem_iff_getElem?.mp hp
  unfold roll_round at hi
  rw [List.getElem?_mapIdx] at hi
  obtain ⟨q, -, rfl⟩ := Option.map_eq_some_iff.mp hi
  obtain ⟨f, hf⟩ := face_roll_dice (rand (2 * i))
  obtain ⟨g, hg⟩ := face_roll_dice (rand (2 * i + 1))
  unfold print_players_rolls roll_players_dice
  simp only [hf, hg, Option.bind_eq_bind, Option.bind_some]
  exact ⟨_, rfl⟩

section

variable {g_list_sort : (Player → Player → Int) → List Player → List Player}
  {players : List Player} {getc : Nat → Int} {rand : Nat → Nat → Nat}

theorem mainRound_spec (hperm : ∀ cmp l, (g_list_sort cmp l).Perm l) (hne : players ≠ [])
    (rand : Nat → Nat) : ∃ lines after, mainRound g_list_sort players rand = some (lines, after) ∧
      (after.map Player.name).Perm (players.map Player.name) := by
  obtain ⟨lines, hlines⟩ := print_roll_round players rand
  have hsorted := hperm sort_players_by_rolls (roll_round players rand)
  have hlength : (roll_round players rand).length = players.length := List.length_mapIdx
  obtain ⟨p, rest, hcons⟩ : ∃ p rest,
      g_list_sort sort_players_by_rolls (roll_round players rand) = p :: rest := by
    refine List.exists_cons_of_ne_nil fun hnil => ?_
    rw [hnil] at hsorted
    have hzero := hsorted.length_eq
    rw [hlength, List.length_nil] at hzero
    exact hne (List.length_eq_zero_iff.mp hzero.symm)
  unfold mainRound playRound
  rw [hlines, hcons]
  refine ⟨_, _, rfl, ?_⟩
  have hwins := (hperm sort_players_by_wins
    ((p :: rest).map (update_leaderboard (roll_sum p.current_roll)))).map Player.name
  rw [update_leaderboard_names] at hwins
  rw [hcons] at hsorted
  have hrolled := hsorted.map Player.name
  rw [roll_round_names] at hrolled
  exact hwins.trans hrolled

/-- No round without players. -/
theorem mainRound_nil (hperm : ∀ cmp l, (g_list_sort cmp l).Perm l) (rand : Nat → Nat) :
    mainRound g_list_sort [] rand = none := by
  have hnil : g_list_sort sort_players_by_rolls (roll_round [] rand) = [] :=
    List.perm_nil.mp (hperm _ _)
  unfold mainRound playRound
  rw [hnil]
  rfl

/-! ## The loop -/

theorem ne_nil_of_names {after : List Player} (hne : players ≠ [])
    (hnames : (after.map Player.name).Perm (players.map Player.name)) : after ≠ [] := by
  rintro rfl
  exact hne (List.map_eq_nil_iff.mp (List.nil_perm.mp hnames))

theorem shifted {n i : Nat} (hgo : ∀ j < n + 1, getc (i + j) ≠ 'q'.toNat) :
    ∀ j < n, getc (i + 1 + j) ≠ 'q'.toNat := by
  intro j hj
  rw [Nat.add_assoc, Nat.add_comm 1]
  exact hgo (j + 1) (Nat.succ_lt_succ hj)

/-- Before the first 'q' the loop goes on. -/
theorem mainLoop_running (hperm : ∀ cmp l, (g_list_sort cmp l).Perm l) (hne : players ≠ [])
    {log : List (Event String)} {fuel i : Nat} {lines : List String}
    (hgo : ∀ j < fuel, getc (i + j) ≠ 'q'.toNat) :
    ∃ after, mainLoop g_list_sort getc rand log fuel i lines players = .running after ∧
      (after.map Player.name).Perm (players.map Player.name) := by
  induction fuel generalizing i lines players with
  | zero => exact ⟨players, rfl, List.Perm.refl _⟩
  | succ fuel ih =>
      obtain ⟨more, next, hround, hnames⟩ := mainRound_spec hperm hne (rand i)
      obtain ⟨after, hloop, hkept⟩ := ih (ne_nil_of_names hne hnames) (shifted hgo)
      have hfirst : getc i ≠ 'q'.toNat := hgo 0 (Nat.succ_pos fuel)
      refine ⟨after, ?_, hkept.trans hnames⟩
      unfold mainLoop
      rw [hround]
      dsimp only
      rw [if_pos hfirst, hloop]

/-- At the first 'q' it ends. -/
theorem mainLoop_returned (hperm : ∀ cmp l, (g_list_sort cmp l).Perm l) (hne : players ≠ [])
    {log : List (Event String)} {n i fuel : Nat} {lines : List String}
    (hq : getc (i + n) = 'q'.toNat) (hgo : ∀ j < n, getc (i + j) ≠ 'q'.toNat) (hfuel : n < fuel) :
    ∃ after all, mainLoop g_list_sort getc rand log fuel i lines players =
        .returned (log ++ destroy_player_list after) all ∧
      (after.map Player.name).Perm (players.map Player.name) := by
  induction n generalizing i lines players fuel with
  | zero =>
      obtain ⟨fuel, rfl⟩ := Nat.exists_eq_add_one_of_ne_zero (Nat.ne_of_gt hfuel)
      obtain ⟨more, next, hround, hnames⟩ := mainRound_spec hperm hne (rand i)
      have hlast : ¬ getc i ≠ 'q'.toNat := not_not.mpr hq
      refine ⟨next, lines ++ more, ?_, hnames⟩
      unfold mainLoop
      rw [hround]
      dsimp only
      rw [if_neg hlast]
  | succ n ih =>
      obtain ⟨fuel, rfl⟩ :=
        Nat.exists_eq_add_one_of_ne_zero (Nat.ne_of_gt (Nat.zero_lt_of_lt hfuel))
      obtain ⟨more, next, hround, hnames⟩ := mainRound_spec hperm hne (rand i)
      have hlast : getc (i + 1 + n) = 'q'.toNat := by
        rw [Nat.add_assoc, Nat.add_comm 1]
        exact hq
      obtain ⟨after, all, hloop, hkept⟩ :=
        ih (ne_nil_of_names hne hnames) hlast (shifted hgo) (Nat.lt_of_succ_lt_succ hfuel)
      have hfirst : getc i ≠ 'q'.toNat := hgo 0 (Nat.succ_pos n)
      refine ⟨after, all, ?_, hkept.trans hnames⟩
      unfold mainLoop
      rw [hround]
      dsimp only
      rw [if_pos hfirst, hloop]

/-! ## From the argument to the exit -/

theorem players_made {count : Int} (hlo : 1 ≤ count) (hhi : count ≤ MAX_PLAYERS) :
    create_player_list count ≠ [] ∧
      (create_player_list count).map Player.name = CHARACTERS.take count.toNat := by
  unfold create_player_list
  rw [if_neg (Int.not_lt.mpr hhi)]
  constructor
  · intro hnil
    have hlength := congrArg List.length hnil
    rw [List.length_map, List.length_take, List.length_nil] at hlength
    have height : CHARACTERS.length = 8 := rfl
    omega
  · rw [List.map_map]
    exact List.map_id _

theorem players_none {count : Int} (h : ¬ (1 ≤ count ∧ count ≤ MAX_PLAYERS)) :
    create_player_list count = [] := by
  unfold create_player_list
  split
  · rfl
  · have hzero : count.toNat = 0 := by omega
    rw [hzero, List.take_zero, List.map_nil]

/-- What is made is freed, once each. -/
theorem balanced_names {players after : List Player}
    (hnodup : (players.map Player.name).Nodup)
    (hnames : (after.map Player.name).Perm (players.map Player.name)) :
    Lib.Balanced (created players ++ destroy_player_list after) := by
  have hmade := Holding.nil.acquire hnodup fun r _ => List.not_mem_nil
  have hfreed := hmade.release (hnames.nodup_iff.mpr hnodup) fun r hr => hnames.subset hr
  rw [List.map_map, List.map_map] at hfreed
  refine hfreed.balanced_iff.mpr (List.filter_eq_nil_iff.mpr fun r hr => ?_)
  rw [decide_eq_true_iff, not_not]
  exact hnames.symm.subset hr

/-- For 1 to `MAX_PLAYERS` players: no fault, whatever is rolled; the loop goes on until the
    first 'q', and then everything is freed. For any other number: a fault in the first round. -/
theorem main_spec (hperm : ∀ cmp l, (g_list_sort cmp l).Perm l) (argument : Option Int)
    (getc : Nat → Int) (rand : Nat → Nat → Nat) :
    (1 ≤ argument.getD 4 ∧ argument.getD 4 ≤ MAX_PLAYERS →
      (∀ n, (∀ i < n, getc i ≠ 'q'.toNat) →
        ∃ players, main g_list_sort getc rand argument n = .running players ∧
          (players.map Player.name).Perm (CHARACTERS.take (argument.getD 4).toNat)) ∧
      ∀ n, getc n = 'q'.toNat → (∀ i < n, getc i ≠ 'q'.toNat) → ∀ fuel, n < fuel →
        ∃ log lines, main g_list_sort getc rand argument fuel = .returned log lines ∧
          Lib.Balanced log) ∧
    (¬ (1 ≤ argument.getD 4 ∧ argument.getD 4 ≤ MAX_PLAYERS) → ∀ fuel, 0 < fuel →
      main g_list_sort getc rand argument fuel = .crashed) := by
  unfold main
  dsimp only
  refine ⟨fun hcount => ?_, fun hcount fuel hfuel => ?_⟩
  · obtain ⟨hne, hnames⟩ := players_made hcount.1 hcount.2
    have hzero : ∀ {n}, (∀ i < n, getc i ≠ 'q'.toNat) → ∀ i < n, getc (0 + i) ≠ 'q'.toNat := by
      intro n hgo i hi
      rw [Nat.zero_add]
      exact hgo i hi
    refine ⟨fun n hgo => ?_, fun n hq hgo fuel hfuel => ?_⟩
    · obtain ⟨players, hloop, hkept⟩ := mainLoop_running hperm hne (hzero hgo)
      rw [hnames] at hkept
      exact ⟨players, hloop, hkept⟩
    · obtain ⟨after, lines, hloop, hkept⟩ := mainLoop_returned hperm hne
        (by rw [Nat.zero_add]; exact hq) (hzero hgo) hfuel
      refine ⟨_, lines, hloop, balanced_names ?_ hkept⟩
      rw [hnames]
      exact (show CHARACTERS.Nodup by decide).sublist (List.take_sublist _ _)
  · obtain ⟨fuel, rfl⟩ := Nat.exists_eq_add_one_of_ne_zero (Nat.ne_of_gt hfuel)
    rw [players_none hcount]
    unfold mainLoop
    rw [mainRound_nil hperm]

end

/-- `g_list_sort` as a merge sort. -/
def mergeSorted (cmp : Player → Player → Int) (l : List Player) : List Player :=
  l.mergeSort fun a b => decide (cmp a b ≤ 0)

/-- Nine players, and two players for two rounds, in which they change places. -/
theorem main_spec_two :
    main mergeSorted (fun _ => 10) (fun _ i => i) (some 9) 1 = .crashed ∧
    ∃ log lines,
      main mergeSorted (fun i => if i = 1 then 113 else 10) (fun _ i => i) (some 2) 2 =
        .returned log lines ∧ Lib.Balanced log :=
  ⟨(main_spec (fun _ l => List.mergeSort_perm l _) (some 9) (fun _ => 10) fun _ i => i).2
      (by decide) 1 (by decide),
    ((main_spec (fun _ l => List.mergeSort_perm l _) (some 2) (fun i => if i = 1 then 113 else 10)
      fun _ i => i).1 (by decide)).2 1 rfl (by decide) 2 (by decide)⟩

end KernelBasecamp.Dice
