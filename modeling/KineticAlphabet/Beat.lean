import KineticAlphabet.Pictograph
/-!
Beats: the timed slots of a sequence. Beat 0 is the start position, in which both actors stand
still. The state of a beat, before or after it, is the stance of both actors.
-/
namespace KineticAlphabet

/-- One timed slot of a sequence. -/
structure Beat where
  number : Nat
  duration : Binary64
  letter : Option String
  motions : Motions
  reversals : Duo Bool
  startPosition : Option String
  endPosition : Option String
  isBlank : Bool
deriving DecidableEq

namespace Beat

def noReversals : Duo Bool := ⟨false, false⟩

def empty (number : Nat) : Beat :=
  { number, duration := .ofRat 1, letter := none, motions := ⟨none, none⟩,
    reversals := noReversals, startPosition := none, endPosition := none, isBlank := false }

def ofPictograph (number : Nat) (p : Pictograph) : Beat :=
  { empty number with
    letter := p.letter, motions := p.motions, startPosition := p.startPosition,
    endPosition := p.endPosition, isBlank := p.isBlank }

/-- The start position: both actors stand still, for no time. -/
def ofStances (stances : Duo Stance) (label : Option String) : Beat :=
  { empty 0 with
    duration := .zero false
    motions := stances.map fun s => some (.staticAt s.location s.orientation)
    startPosition := label, endPosition := label }

def blank (number : Nat) : Beat := { empty number with isBlank := true }

/-- The beat as a pictograph, on the grid where blue starts. -/
def toPictograph (b : Beat) : Pictograph :=
  { id := "beat-" ++ String.ofList (Decimal.numeral b.number)
    motions := b.motions, letter := b.letter, startPosition := b.startPosition,
    endPosition := b.endPosition
    grid := (b.motions.blue.map (·.startLocation.grid)).getD .diamond
    isBlank := b.isBlank }

def startState? (b : Beat) : Option (Duo Stance) := b.motions.both?.map (·.map Motion.startStance)

def endState? (b : Beat) : Option (Duo Stance) := b.motions.both?.map (·.map Motion.endStance)

def flagCount (flags : Duo Bool) : Nat := (flags.toList.filter id).length

end Beat

def Duo.locations (state : Duo Stance) : Duo Location := state.map Stance.location

end KineticAlphabet
