import KineticAlphabet.Letter
import KineticAlphabet.Motion
import KineticAlphabet.Position
/-!
Which letter two motions spell. It depends on the kinds of the motions (shift, dash or static), on
the position groups at the start and at the end, and on which of the shifts are anti. Turns, spins
and orientations never change the letter. Motions that do not go as far as their kind asks, or that
stand on different grids, spell nothing.
-/
namespace KineticAlphabet

/-- How a hand goes: round the ring, across it, or not at all. -/
inductive Travel
  | shift
  | dash
  | static
deriving DecidableEq, Repr

def MotionType.travel : MotionType → Travel
  | .static => .static
  | .dash => .dash
  | .pro | .anti | .float => .shift

/-- Whether a way of travel covers a distance on the ring. -/
def Travel.covers (t : Travel) (steps : Nat) : Bool :=
  match t with
  | .static => steps = 0
  | .dash => steps = 4
  | .shift => steps = 2 || steps = 6

namespace Motion

def travel (m : Motion) : Travel := m.motionType.travel

def travelsWell (m : Motion) : Bool := m.travel.covers (m.startLocation.stepsTo m.endLocation)

/-- Whether the prop of a shift spins against the hand. -/
def isAnti (m : Motion) : Bool := m.motionType = .anti

end Motion

namespace Letter

/-- The letter of two shifts that keep to a family: both pro, both anti, or one of each. -/
def ofFamily (bothPro bothAnti mixed : Letter) (antis : Duo Bool) : Letter :=
  match antis.blue, antis.red with
  | false, false => bothPro
  | true, true => bothAnti
  | _, _ => mixed

def ofShifts? (start stop : PositionGroup) (antis : Duo Bool) (sameWay changePlaces : Bool) :
    Option Letter :=
  match start, stop with
  | .alpha, .alpha => some (ofFamily A B C antis)
  | .beta, .alpha => some (ofFamily D E F antis)
  | .beta, .beta => some (ofFamily G H I antis)
  | .alpha, .beta => some (ofFamily J K L antis)
  | .gamma, .gamma =>
    if sameWay then some (ofFamily M N O antis)
    else if changePlaces then some (ofFamily P Q R antis)
    -- where the hands part the letter tells which of the two is anti
    else some (ofFamily S T (if antis.red then U else V) antis)
  | _, _ => none

def ofShift? (start stop : PositionGroup) (anti : Bool) : Option Letter :=
  match start, stop with
  | .gamma, .alpha => some (if anti then X else W)
  | .gamma, .beta => some (if anti then Z else Y)
  | .alpha, .gamma => some (if anti then delta else sigma)
  | .beta, .gamma => some (if anti then omega else theta)
  | _, _ => none

def ofCrossShift? (start stop : PositionGroup) (anti : Bool) : Option Letter :=
  match start, stop with
  | .gamma, .alpha => some (if anti then crossX else crossW)
  | .gamma, .beta => some (if anti then crossZ else crossY)
  | .alpha, .gamma => some (if anti then crossDelta else crossSigma)
  | .beta, .gamma => some (if anti then crossOmega else crossTheta)
  | _, _ => none

def ofDash? (start stop : PositionGroup) : Option Letter :=
  match start, stop with
  | .beta, .alpha => some phi
  | .alpha, .beta => some psi
  | .gamma, .gamma => some lambda
  | _, _ => none

def ofDashes? (start stop : PositionGroup) : Option Letter :=
  match start, stop with
  | .alpha, .alpha => some dualPhi
  | .beta, .beta => some dualPsi
  | .gamma, .gamma => some dualLambda
  | _, _ => none

def ofStatics? (start stop : PositionGroup) : Option Letter :=
  match start, stop with
  | .alpha, .alpha => some alpha
  | .beta, .beta => some beta
  | .gamma, .gamma => some gamma
  | _, _ => none

/-- The letter that two motions spell. -/
def ofMotions? (ms : Duo Motion) : Option Letter :=
  let blue := ms.blue
  let red := ms.red
  if !(ms.all Motion.travelsWell) then none
  else do
    let start ← PositionGroup.ofHands? (ms.map Motion.startLocation)
    let stop ← PositionGroup.ofHands? (ms.map Motion.endLocation)
    match blue.travel, red.travel with
    | .shift, .shift =>
      ofShifts? start stop (ms.map Motion.isAnti) (blue.handRotation = red.handRotation)
        (blue.endLocation = red.startLocation && red.endLocation = blue.startLocation)
    | .shift, .static => ofShift? start stop blue.isAnti
    | .static, .shift => ofShift? start stop red.isAnti
    | .shift, .dash => ofCrossShift? start stop blue.isAnti
    | .dash, .shift => ofCrossShift? start stop red.isAnti
    | .dash, .static | .static, .dash => ofDash? start stop
    | .dash, .dash => ofDashes? start stop
    | .static, .static => ofStatics? start stop

end Letter

/-- The way a hand has to turn for the prop of a shift to spin in a direction. -/
def MotionType.handFor (t : MotionType) (spin : Rotation) : Rotation :=
  if t = .anti then spin.reversed else spin

def Location.shiftTarget (l : Location) : Rotation → Location
  | .cw => l.rotated 2
  | .ccw => l.rotated (-2)
  | .none => l

end KineticAlphabet
