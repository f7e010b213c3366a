import KineticAlphabet.Actor
import KineticAlphabet.Location
import KineticAlphabet.Number.Decimal
/-!
Positions: where the two hands are to each other. They are together (beta), opposite (alpha) or a
quarter apart (gamma); a hand at an odd distance from the other has no position, because the two are
on different grids. A label is the group with a number, which tells the place of the blue hand, and
in gamma also on which side the red hand is.
-/
namespace KineticAlphabet

/-- How the hands are to each other. -/
inductive PositionGroup
  | alpha
  | beta
  | gamma
deriving DecidableEq, Ord, Repr

namespace PositionGroup

def all : List PositionGroup := [alpha, beta, gamma]

def name : PositionGroup → String
  | alpha => "alpha"
  | beta => "beta"
  | gamma => "gamma"

def ofName? (s : String) : Option PositionGroup := all.find? (·.name == s)

/-- The group whose name a label begins with, in any case and after blanks. -/
def ofLabel? (label : String) : Option PositionGroup :=
  let cs := (Text.bare label).toList
  all.find? fun g => g.name.toList.isPrefixOf cs

/-- The group of a distance on the ring. -/
def ofSteps? : Nat → Option PositionGroup
  | 0 => some beta
  | 4 => some alpha
  | 2 | 6 => some gamma
  | _ => none

def ofHands? (hands : Duo Location) : Option PositionGroup :=
  ofSteps? (hands.blue.stepsTo hands.red)

end PositionGroup

namespace Position

def number (hands : Duo Location) : Nat :=
  hands.blue.index + 1 + if hands.blue.stepsTo hands.red = 6 then 8 else 0

def label? (hands : Duo Location) : Option String :=
  (PositionGroup.ofHands? hands).map fun g =>
    g.name ++ String.ofList (Decimal.numeral (number hands))

/-- The locations that a group and a number stand for: where blue is, and how far on red is. -/
def hands? (g : PositionGroup) (n : Int) : Option (Duo Location) :=
  let place (index steps : Int) : Option (Duo Location) :=
    let blue := Location.ofIndex index
    some ⟨blue, blue.rotated steps⟩
  match g with
  | .beta => if 1 ≤ n ∧ n ≤ 8 then place (n - 1) 0 else none
  | .alpha => if 1 ≤ n ∧ n ≤ 8 then place (n - 1) 4 else none
  | .gamma =>
    if 1 ≤ n ∧ n ≤ 8 then place (n - 1) 2
    else if 9 ≤ n ∧ n ≤ 16 then place (n - 9) 6
    else none

/-- The locations that a label names: a group in any case and a number, between blanks. -/
def ofLabel? (label : String) : Option (Duo Location) := do
  let g ← PositionGroup.ofLabel? label
  let n ← Decimal.int32? ((Text.trimChars label.toList).drop g.name.length)
  hands? g n

end Position

end KineticAlphabet
