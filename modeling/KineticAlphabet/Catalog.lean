import KineticAlphabet.Pictograph
/-!
The catalog of a grid: every pictograph of two motions between its points. From each point an actor
can make six motions, a pro or an anti shift in either direction, a static and a dash. So there are
576 pictographs, for each of the sixteen pairs of start points all 36 pairs of motions.
-/
namespace KineticAlphabet

/-- The motions that an actor can make from a location, with the prop pointing in. -/
def Motion.options (l : Location) : List Motion :=
  let shift (t : MotionType) (hand : Rotation) : Motion := .shift t l (l.shiftTarget hand) .inward
  [ shift .pro .cw, shift .pro .ccw, shift .anti .cw, shift .anti .ccw,
    staticAt l .inward, dashFrom l .inward ]

namespace Catalog

def pairs {α : Type} (as bs : List α) : List (Duo α) := as.flatMap fun a => bs.map fun b => ⟨a, b⟩

/-- Every pair of motions between points of a grid that spells a letter, with that letter. -/
def spelled (g : Grid) : List (Duo Motion × Letter) :=
  (pairs g.points g.points).flatMap fun start =>
    (pairs (Motion.options start.blue) (Motion.options start.red)).filterMap fun ms =>
      (Letter.ofMotions? ms).map (ms, ·)

/-- A pictograph labelled with its letter and positions, and numbered. -/
def entry (g : Grid) (i : Nat) (ms : Duo Motion) (l : Letter) : Pictograph :=
  { Pictograph.make (g.name ++ "-" ++ String.ofList (Decimal.numeral i)) ms with
    letter := some l.text
    startPosition := Position.label? (ms.map Motion.startLocation)
    endPosition := Position.label? (ms.map Motion.endLocation) }

def build (g : Grid) : List Pictograph := (spelled g).mapIdx fun i (ms, l) => entry g i ms l

def diamond : List Pictograph := build .diamond

def box : List Pictograph := build .box

def entries : Grid → List Pictograph
  | .diamond => diamond
  | .box => box

def startingAt (g : Grid) (hands : Duo Location) : List Pictograph :=
  (entries g).filter fun p => p.motions.startHands? = some hands

def withLetter (g : Grid) (letter : String) : List Pictograph :=
  (entries g).filter fun p => p.letter = some letter

def withTypes (g : Grid) (types : List LetterType) : List Pictograph :=
  (entries g).filter fun p => types.contains p.letterType

end Catalog

end KineticAlphabet
