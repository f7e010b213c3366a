import KineticAlphabet.Actor
import KineticAlphabet.Location
import KineticAlphabet.MotionType
import KineticAlphabet.Orientation
import KineticAlphabet.Turns
/-!
Motions. The orientation in which a prop ends follows from the others: whole turns flip it within
its category by their parity, a half turn left over moves it a quarter of the cycle along its spin,
and a float takes the orientation of its spin. A motion keeps that orientation as a field, and is
consistent when the field is the derived one.
-/
namespace KineticAlphabet

/-- The orientation after whole turns. An odd number of them flips it, for an anti shift an even
one. -/
def Orientation.afterWhole (o : Orientation) (t : MotionType) (turns : Nat) : Orientation :=
  let isOdd := turns % 2 = 1
  match t with
  | .anti => if isOdd then o else o.flipped
  | _ => if isOdd then o.flipped else o

/-- The orientation after a half turn. Without a spin it follows the clockwise cycle. -/
def Orientation.afterHalf (o : Orientation) : Rotation → Orientation
  | .ccw => o.previous
  | .cw | .none => o.next

def Orientation.afterFloat (o : Orientation) : Rotation → Orientation
  | .cw => .clock
  | .ccw => .counter
  | .none => o

/-- The orientation in which a motion of a type ends that turns the prop in a direction. -/
def Orientation.after (o : Orientation) (t : MotionType) (turns : Turns) (spin : Rotation) :
    Orientation :=
  if turns.isFloat || t = .float then o.afterFloat spin
  else
    let flipped := o.afterWhole t turns.wholePart
    if turns.hasHalf then flipped.afterHalf spin else flipped

/-- A point of an explicit hand path. -/
structure Point where
  x : Binary64
  y : Binary64
deriving DecidableEq

/-- What one actor does during a beat. -/
structure Motion where
  motionType : MotionType
  blend : Blend
  startLocation : Location
  endLocation : Location
  turns : Turns
  spin : Rotation
  startOrientation : Orientation
  endOrientation : Orientation
  path : Option (List Point)
deriving DecidableEq

namespace Motion

def derivedEnd (m : Motion) : Orientation := m.startOrientation.after m.motionType m.turns m.spin

def rederive (m : Motion) : Motion := { m with endOrientation := m.derivedEnd }

def Consistent (m : Motion) : Prop := m.endOrientation = m.derivedEnd

instance (m : Motion) : Decidable m.Consistent :=
  inferInstanceAs (Decidable (m.endOrientation = m.derivedEnd))

def make (t : MotionType) (start stop : Location) (turns : Turns) (spin : Rotation)
    (o : Orientation) : Motion :=
  { motionType := t, blend := .single, startLocation := start, endLocation := stop, turns, spin,
    startOrientation := o, endOrientation := o.after t turns spin, path := none }

def handRotation (m : Motion) : Rotation := m.startLocation.handRotation m.endLocation

/-- A shift without turns. The prop of an anti shift spins against the hand, any other with it. -/
def shift (t : MotionType) (start stop : Location) (o : Orientation) : Motion :=
  let hand := start.handRotation stop
  make t start stop .zero (if t = .anti then hand.reversed else hand) o

def staticAt (l : Location) (o : Orientation) : Motion := make .static l l .zero .none o

def dashFrom (l : Location) (o : Orientation) : Motion := make .dash l l.opposite .zero .none o

def withStartOrientation (m : Motion) (o : Orientation) : Motion :=
  { m with startOrientation := o }.rederive

def withTurns (m : Motion) (turns : Turns) : Motion := { m with turns }.rederive

def withSpin (m : Motion) (spin : Rotation) : Motion := { m with spin }.rederive

def withPath (m : Motion) (path : List Point) : Motion := { m with path := some path }

def withBlend (m : Motion) (blend : Blend) : Motion := { m with blend }

/-- The float along the same way: its prop spins as the hand turns. -/
def intoFloat (m : Motion) : Motion :=
  { m with motionType := .float, turns := .float, spin := m.handRotation }.rederive

theorem consistent_rederive (m : Motion) : m.rederive.Consistent := rfl

/-- Deriving changes nothing just where it would give what is there. -/
theorem rederive_eq_self_iff (m : Motion) : m.rederive = m ↔ m.Consistent := by
  constructor
  · intro h
    exact (congrArg endOrientation h).symm
  · intro h
    rw [rederive, ← h]

theorem consistent_make (t : MotionType) (start stop : Location) (turns : Turns) (spin : Rotation)
    (o : Orientation) : (make t start stop turns spin o).Consistent := rfl

end Motion

/-- Where an actor stands between two beats. -/
structure Stance where
  location : Location
  orientation : Orientation
deriving DecidableEq, Repr

namespace Motion

def startStance (m : Motion) : Stance := ⟨m.startLocation, m.startOrientation⟩

def endStance (m : Motion) : Stance := ⟨m.endLocation, m.endOrientation⟩

end Motion

/-- The motions of both actors, each of which may be absent. -/
abbrev Motions := Duo (Option Motion)

end KineticAlphabet
