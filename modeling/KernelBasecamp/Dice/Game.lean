/-
  The dice game of exercise04 (players.c and dice.c): players roll two dice a round, the
  highest sum wins it, and the list of players is kept as a leaderboard.

  A `GList` of players is the list of their records, NULL the empty list. `g_list_sort` is an
  argument: what is asked of it is `Lib.StableSorting`. The results of `rand` in a round are
  given as a function of their number; they are not negative. Sums of dice stay far inside an
  int, while `win_count` is unsigned and the comparison of two of them a wrapped difference.
  What the program prints is left out.
-/
import KernelBasecamp.Lib.Run
import KernelBasecamp.Lib.StableSort

namespace KernelBasecamp.Dice

def MAX_ROLL : Nat := 6
def MAX_PLAYERS : Int := 8

def CHARACTERS : List String :=
  ["Winnie", "Piglet", "Tigger", "Rabbit", "Eyeoure", "Kanga", "Roo", "Owl"]

structure Player where
  name : String
  win_count : UInt32
  current_roll : Int × Int
  deriving DecidableEq, Repr

/-! ## players.c -/

def roll_dice (rand : Nat) : Int := (rand % MAX_ROLL : Nat) + 1

def create_player (name : String) : Player := ⟨name, 0, (0, 0)⟩

def create_player_list (count : Int) : List Player :=
  if count > MAX_PLAYERS then [] else (CHARACTERS.take count.toNat).map create_player

def roll_players_dice (p : Player) (first second : Nat) : Player :=
  { p with current_roll := (roll_dice first, roll_dice second) }

/-- `rand i` is what the `i`-th call of `rand` in this round returns. -/
def roll_round (players : List Player) (rand : Nat → Nat) : List Player :=
  players.mapIdx fun i p => roll_players_dice p (rand (2 * i)) (rand (2 * i + 1))

/-! ## dice.c -/

def roll_sum (r : Int × Int) : Int := r.1 + r.2

def sort_players_by_rolls (a b : Player) : Int := roll_sum b.current_roll - roll_sum a.current_roll

/-- The unsigned difference, as the int it is returned as. -/
def sort_players_by_wins (a b : Player) : Int := (b.win_count - a.win_count).toInt32.toInt

def update_leaderboard (max_score : Int) (p : Player) : Player :=
  let win_count : UInt32 := if roll_sum p.current_roll = max_score then 1 else 0
  { p with win_count := p.win_count + win_count }

/-- The body of `main`'s loop; `none` where it dereferences the empty list. -/
def playRound (g_list_sort : (Player → Player → Int) → List Player → List Player)
    (players : List Player) (rand : Nat → Nat) : Option (List Player) :=
  let players := g_list_sort sort_players_by_rolls (roll_round players rand)
  match players.head? with
  | none => none
  | some p =>
      let max_score := roll_sum p.current_roll
      some (g_list_sort sort_players_by_wins (players.map (update_leaderboard max_score)))

/-! ## What a round keeps -/

/-- A roll changes neither names nor counts, and not the order. -/
theorem roll_round_kept (players : List Player) (rand : Nat → Nat) :
    (roll_round players rand).map (fun p => (p.name, p.win_count)) =
      players.map fun p => (p.name, p.win_count) := by
  unfold roll_round
  refine List.ext_getElem? fun i => ?_
  rw [List.getElem?_map, List.getElem?_map, List.getElem?_mapIdx, Option.map_map]
  rfl

theorem roll_round_names (players : List Player) (rand : Nat → Nat) :
    (roll_round players rand).map Player.name = players.map Player.name := by
  have hkept := congrArg (List.map Prod.fst) (roll_round_kept players rand)
  rwa [List.map_map, List.map_map] at hkept

theorem update_leaderboard_names (max_score : Int) (players : List Player) :
    (players.map (update_leaderboard max_score)).map Player.name = players.map Player.name := by
  rw [List.map_map]
  rfl

/-- Who has not the highest sum is left alone altogether. -/
theorem update_leaderboard_of_ne {max_score : Int} {p : Player}
    (h : roll_sum p.current_roll ≠ max_score) : update_leaderboard max_score p = p := by
  unfold update_leaderboard
  dsimp only
  rw [if_neg h, UInt32.add_zero]

end KernelBasecamp.Dice
