import KineticAlphabet.Spelling
/-!
Pictographs: one snapshot of both actors, with the letter and the positions that it is labelled
with. The labels are kept as they were given; `letter?`, `startLabel?` and `endLabel?` derive them
from the motions.
-/
namespace KineticAlphabet

namespace Duo

def startHands? (ms : Motions) : Option (Duo Location) :=
  ms.both?.map (·.map Motion.startLocation)

def endHands? (ms : Motions) : Option (Duo Location) := ms.both?.map (·.map Motion.endLocation)

end Duo

/-- One snapshot of both actors. -/
structure Pictograph where
  id : String
  motions : Motions
  letter : Option String
  startPosition : Option String
  endPosition : Option String
  grid : Grid
  isBlank : Bool
deriving DecidableEq

namespace Pictograph

def empty : Pictograph :=
  { id := "", motions := ⟨none, none⟩, letter := none, startPosition := none, endPosition := none,
    grid := .diamond, isBlank := false }

/-- A pictograph of two motions, without labels, on the grid where blue starts. -/
def make (id : String) (ms : Duo Motion) : Pictograph :=
  { empty with id, motions := ms.map some, grid := ms.blue.startLocation.grid }

def blank (id : String) : Pictograph := { empty with id, isBlank := true }

def letterText (p : Pictograph) : String := p.letter.getD ""

def letter? (p : Pictograph) : Option Letter := p.motions.both?.bind Letter.ofMotions?

def startLabel? (p : Pictograph) : Option String := p.motions.startHands?.bind Position.label?

/-- The label of the position in which the motions end. Where a motion is missing, the label given
stands for it. -/
def endLabel? (p : Pictograph) : Option String :=
  match p.motions.endHands? with
  | some hands => Position.label? hands
  | none => p.endPosition

def endGroup? (p : Pictograph) : Option PositionGroup := p.endLabel?.bind PositionGroup.ofLabel?

def startGroup? (p : Pictograph) : Option PositionGroup :=
  p.startLabel?.bind PositionGroup.ofLabel?

def letterType (p : Pictograph) : LetterType := .ofText p.letterText

end Pictograph

end KineticAlphabet
