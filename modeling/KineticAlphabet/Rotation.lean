import KineticAlphabet.Record
import KineticAlphabet.Text.Blank
/-!
Directions of rotation, of a prop about its own middle or of a hand about the grid.
-/
namespace KineticAlphabet

/-- A direction of rotation, or none. -/
inductive Rotation
  | cw
  | ccw
  | none
deriving DecidableEq, Repr

namespace Rotation

def all : List Rotation := [cw, ccw, none]

def reversed : Rotation → Rotation
  | cw => ccw
  | ccw => cw
  | none => none

def spins : Rotation → Bool
  | none => false
  | _ => true

def name : Rotation → String
  | cw => "cw"
  | ccw => "ccw"
  | none => "no_rotation"

def names : Rotation → List String
  | cw => ["cw", "clockwise"]
  | ccw => ["ccw", "counter_clockwise"]
  | none => ["no_rotation", "norotation", "noRotation"]

def ofName? (s : String) : Option Rotation := all.find? (·.names.contains s)

/-- The names that a text may use in any case and between blanks. -/
def spellings : Rotation → List String
  | cw => ["cw", "clockwise"]
  | ccw => ["ccw", "counter_clockwise"]
  | none => ["no_rotation", "norotation", "none"]

def read (text : String) : Except ReadError Rotation :=
  (all.find? (·.spellings.contains (Text.bare text))).elim (.error (.unknownRotation text)) .ok

@[simp] theorem reversed_reversed (r : Rotation) : r.reversed.reversed = r := by cases r <;> rfl
@[simp] theorem spins_reversed (r : Rotation) : r.reversed.spins = r.spins := by cases r <;> rfl

end Rotation

end KineticAlphabet
