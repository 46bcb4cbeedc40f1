import Mathlib.Data.Int.Notation
import Mathlib.Logic.Function.Basic
import Coursework.Lib.Program

/-! A game of blackjack for one player, computers and a dealer: how cards are drawn, dealt and
settled. What the program prints is left out. -/
namespace Blackjack
open Program

def numberOfDeck : ℕ := 4

structure Human where
  hold : List ℤ
  motteruCard : ℤ
  score : ℤ
  isDealer : Bool

/-- The globals of the program, and what is still to come of the random numbers and the inputs.
`dealt` only records: the cards that `getCard` has returned, the last one first, each with what
`deck` had of it. -/
structure Game where
  N : ℕ
  deck : ℤ → ℤ
  nokoriCardCnt : ℤ
  round : ℤ
  player : ℕ → Human
  rands : ℕ → ℕ
  inputs : ℕ → ℤ
  dealt : List (ℤ × ℤ)

/-- A loop has not come to its end yet. -/
inductive Unfinished where
  | fuel

/-- Each assignment to a global is an event, with the state after it. -/
abbrev M := Program Game Unfinished Game

def rand : M ℕ := do
  let s ← read
  change fun s => { s with rands := fun k => s.rands (k + 1) }
  pure (s.rands 0)

/-- `cin >> hit`. -/
def input : M ℤ := do
  let s ← read
  change fun s => { s with inputs := fun k => s.inputs (k + 1) }
  pure (s.inputs 0)

/-- `getCard`. Each of the three branches of its loop breaks, whether `deck` has the card or
not, so that the loop takes one random number. -/
def getCard : M ℤ := do
  let s ← read
  if s.nokoriCardCnt = 0 then pure (-1)
  else do
    let r ← rand
    let card : ℤ := ((r % (numberOfDeck * 13) : ℕ) : ℤ)
    assign fun s =>
      { s with nokoriCardCnt := s.nokoriCardCnt - 1, dealt := (card, s.deck card) :: s.dealt }
    pure card

def Game.setPlayer (s : Game) (i : ℕ) (h : Human) : Game :=
  { s with player := Function.update s.player i h }

/-- `push_back` and the count of the cards. -/
def take (i : ℕ) (cur : ℤ) : M Unit :=
  assign fun s => s.setPlayer i { s.player i with
    hold := (s.player i).hold ++ [cur], motteruCard := (s.player i).motteruCard + 1 }

/-- One of the two cards that `PunPai` deals to each. -/
def dealCard (i : ℕ) : M Unit := do
  let s ← read
  if s.nokoriCardCnt ≠ 0 then do
    let c ← getCard
    take i c
  else pure ()

def punPai : M Unit := do
  let s ← read
  (List.range (s.N + 1)).forM fun i => do
    dealCard i
    dealCard i

/-- The sum of a hand with its aces as 1, and their number. -/
def sumHold : List ℤ → ℤ × ℕ
  | [] => (0, 0)
  | cur :: hold =>
    let num := cur.tmod 13
    let (ret, aceNum) := sumHold hold
    if num = 0 then (ret + 1, aceNum + 1)
    else if 10 ≤ num then (ret + 10, aceNum)
    else (ret + (num + 1), aceNum)

/-- The loop that counts aces as 10. -/
def raiseAces : ℕ → ℤ → ℤ
  | 0, ret => ret
  | aceNum + 1, ret => if ret + 9 ≤ 21 then raiseAces aceNum (ret + 9) else ret

def getCardPoint (h : Human) : ℤ := raiseAces (sumHold h.hold).2 (sumHold h.hold).1

/-- The loop of the player, who hits as long as the input is not 0. -/
def playerLoop (i : ℕ) : ℕ → M Unit
  | 0 => stop .fuel
  | fuel + 1 => do
    let hit ← input
    if hit = 0 then pure ()
    else do
      let cur ← getCard
      if cur = -1 then pure ()
      else do
        take i cur
        let s ← read
        if getCardPoint (s.player i) = 21 then pure ()
        else if 21 < getCardPoint (s.player i) then pure ()
        else playerLoop i fuel

/-- The loop of a computer or the dealer, who hits below `limit`. -/
def hitBelow (limit : ℤ) (i : ℕ) : ℕ → M Unit
  | 0 => stop .fuel
  | fuel + 1 => do
    let s ← read
    if getCardPoint (s.player i) < limit then do
      let cur ← getCard
      if cur = -1 then pure ()
      else do
        take i cur
        let s ← read
        if getCardPoint (s.player i) = 21 then pure ()
        else if 21 < getCardPoint (s.player i) then pure ()
        else hitBelow limit i fuel
    else pure ()

/-- A computer: below 14 it hits, up to 17 by chance. -/
def computer (fuel i : ℕ) : M Unit := do
  hitBelow 14 i fuel
  let s ← read
  if getCardPoint (s.player i) ≤ 17 then do
    let r ← rand
    if r % 2 ≠ 0 then do
      let cur ← getCard
      if cur = -1 then pure () else take i cur
    else pure ()
  else pure ()

def drawEveryone (fuel : ℕ) : M Unit := do
  playerLoop 1 fuel
  let s ← read
  (List.range' 2 (s.N - 1)).forM (computer fuel)
  hitBelow 17 0 fuel

/-- What a hand wins against that of the dealer. -/
def award (dealer own : ℤ) : ℤ :=
  if 21 < dealer then
    if 21 < own then -100 else if own = 21 then 200 else 100
  else if dealer = 21 then
    if 21 < own then -100 else if own = 21 then 0 else -100
  else
    if 21 < own then -100
    else if own = 21 then 200
    else if dealer < own then 100
    else if own < dealer then -100
    else 0

def kaikei : M Unit := do
  let s ← read
  (List.range' 1 s.N).forM fun i =>
    assign fun s => s.setPlayer i { s.player i with
      score := (s.player i).score +
        award (getCardPoint (s.player 0)) (getCardPoint (s.player i)) }

def endRound : M Unit := do
  let s ← read
  (List.range (s.N + 1)).forM fun i =>
    assign fun s => s.setPlayer i { s.player i with hold := [], motteruCard := 0 }

def startRound (fuel : ℕ) : M Unit := do
  assign fun s => { s with round := s.round + 1 }
  punPai
  drawEveryone fuel
  kaikei
  endRound

/-- The rounds of `main`. -/
def rounds (fuel : ℕ) : ℕ → M Unit
  | 0 => stop .fuel
  | n + 1 => do
    let s ← read
    if ((s.N : ℤ) + 1) * 5 ≤ s.nokoriCardCnt then do
      startRound fuel
      rounds fuel n
    else pure ()

/-- What `main` does before the first round. -/
def Game.setUp (s : Game) : Game :=
  { s with
    deck := fun c => if 0 ≤ c ∧ c < 4 * 13 then numberOfDeck else s.deck c
    player := fun i =>
      if i ≤ s.N then ⟨(s.player i).hold, 0, 500, i == 0⟩ else s.player i }

/-- `main`, with every loop cut off after `fuel` rounds. -/
def main (fuel : ℕ) : M Unit := do
  assign Game.setUp
  rounds fuel fuel

/-- The globals at the start of the program. -/
def Game.initial (N : ℕ) (rands : ℕ → ℕ) (inputs : ℕ → ℤ) : Game where
  N := N
  deck _ := 0
  nokoriCardCnt := 208
  round := 0
  player _ := ⟨[], 0, 0, false⟩
  rands := rands
  inputs := inputs
  dealt := []

end Blackjack
