import KineticAlphabet.Pictograph
/-!
CAP types: the symmetries by which a slice of beats is repeated until it makes a circular sequence.
A type is a set of components, which are always applied in one order: turn the grid, mirror it,
exchange the actors, exchange pro and anti. The order matters, because turning and mirroring do not
commute.
-/
namespace KineticAlphabet

/-- A symmetry by which a slice is repeated. -/
inductive Cap
  | strictRotated
  | strictMirrored
  | strictSwapped
  | strictComplementary
  | mirroredSwapped
  | mirroredComplementary
  | rotatedSwapped
  | rotatedComplementary
  | swappedComplementary
  | mirroredRotated
  | mirroredComplementaryRotated
  | rotatedSwappedComplementary
  | mirroredSwappedComplementary
deriving DecidableEq, Repr

inductive Cap.Component
  | rotated
  | mirrored
  | swapped
  | complementary
deriving DecidableEq, Repr

/-- How much of a circular sequence a slice makes up: a half or a quarter. -/
inductive Slice
  | halved
  | quartered
deriving DecidableEq, Repr

namespace Cap

namespace Component

def all : List Component := [rotated, mirrored, swapped, complementary]

def name : Component → String
  | rotated => "rotated"
  | mirrored => "mirrored"
  | swapped => "swapped"
  | complementary => "complementary"

def ofName? (s : String) : Option Component := all.find? (·.name == s)

end Component

def all : List Cap :=
  [ strictRotated, strictMirrored, strictSwapped, strictComplementary, mirroredSwapped,
    mirroredComplementary, rotatedSwapped, rotatedComplementary, swappedComplementary,
    mirroredRotated, mirroredComplementaryRotated, rotatedSwappedComplementary,
    mirroredSwappedComplementary ]

def components : Cap → List Component
  | strictRotated => [.rotated]
  | strictMirrored => [.mirrored]
  | strictSwapped => [.swapped]
  | strictComplementary => [.complementary]
  | mirroredSwapped => [.mirrored, .swapped]
  | mirroredComplementary => [.mirrored, .complementary]
  | rotatedSwapped => [.rotated, .swapped]
  | rotatedComplementary => [.rotated, .complementary]
  | swappedComplementary => [.swapped, .complementary]
  | mirroredRotated => [.rotated, .mirrored]
  | mirroredComplementaryRotated => [.rotated, .mirrored, .complementary]
  | rotatedSwappedComplementary => [.rotated, .swapped, .complementary]
  | mirroredSwappedComplementary => [.mirrored, .swapped, .complementary]

def has (c : Cap) (k : Component) : Bool := c.components.contains k

def name : Cap → String
  | strictRotated => "STRICT_ROTATED"
  | strictMirrored => "STRICT_MIRRORED"
  | strictSwapped => "STRICT_SWAPPED"
  | strictComplementary => "STRICT_COMPLEMENTARY"
  | mirroredSwapped => "MIRRORED_SWAPPED"
  | mirroredComplementary => "MIRRORED_COMPLEMENTARY"
  | rotatedSwapped => "ROTATED_SWAPPED"
  | rotatedComplementary => "ROTATED_COMPLEMENTARY"
  | swappedComplementary => "SWAPPED_COMPLEMENTARY"
  | mirroredRotated => "MIRRORED_ROTATED"
  | mirroredComplementaryRotated => "MIRRORED_COMPLEMENTARY_ROTATED"
  | rotatedSwappedComplementary => "ROTATED_SWAPPED_COMPLEMENTARY"
  | mirroredSwappedComplementary => "MIRRORED_SWAPPED_COMPLEMENTARY"

def ofName? (s : String) : Option Cap := all.find? (·.name == s)

/-- The type that a text names, in any case, between blanks, and with hyphens for underscores. -/
def read (text : String) : Except ReadError Cap :=
  let wanted := (Text.upper (Text.trim text)).toList.map fun c => if c = '-' then '_' else c
  (ofName? (String.ofList wanted)).elim (.error (.unknownCap text)) .ok

end Cap

namespace Slice

def all : List Slice := [halved, quartered]

def name : Slice → String
  | halved => "halved"
  | quartered => "quartered"

def ofName? (s : String) : Option Slice := all.find? (·.name == s)

def repeats : Slice → Nat
  | halved => 2
  | quartered => 4

/-- How many places on the ring one turn covers, so that all slices together make a whole turn. -/
def steps : Slice → Nat
  | halved => 4
  | quartered => 2

theorem steps_mul_repeats (s : Slice) : s.steps * s.repeats = 8 := by cases s <;> rfl

end Slice

namespace Motion

def rotated (m : Motion) (steps : Nat) : Motion :=
  { m with
    startLocation := m.startLocation.rotated steps
    endLocation := m.endLocation.rotated steps }.rederive

/-- The mirror image of a motion: its spin is the other way. -/
def mirrored (m : Motion) : Motion :=
  { m with
    startLocation := m.startLocation.mirrored
    endLocation := m.endLocation.mirrored
    spin := m.spin.reversed
    startOrientation := m.startOrientation.mirrored }.rederive

/-- The motion with pro and anti exchanged: the hand keeps its way and the prop spins the other way.
Other motions stay as they are. -/
def complement (m : Motion) : Motion :=
  match m.motionType with
  | .pro | .anti =>
    { m with motionType := m.motionType.complement, spin := m.spin.reversed }.rederive
  | _ => m

end Motion

namespace Cap.Component

def onHands (slice : Slice) : Component → Duo Location → Duo Location
  | rotated, hands => hands.map (·.rotated slice.steps)
  | mirrored, hands => hands.map Location.mirrored
  | swapped, hands => hands.swap
  | complementary, hands => hands

def onMotions (slice : Slice) : Component → Motions → Motions
  | rotated, ms => ms.map (Option.map (·.rotated slice.steps))
  | mirrored, ms => ms.map (Option.map Motion.mirrored)
  | swapped, ms => ms.swap
  | complementary, ms => ms.map (Option.map Motion.complement)

end Cap.Component

namespace Cap

def onHands (c : Cap) (slice : Slice) (hands : Duo Location) : Duo Location :=
  c.components.foldl (fun hands k => k.onHands slice hands) hands

/-- The motions of both actors one slice later. The end orientations are derived anew. -/
def onMotions (c : Cap) (slice : Slice) (ms : Motions) : Motions :=
  c.components.foldl (fun ms k => k.onMotions slice ms) ms

def onHandsN (c : Cap) (slice : Slice) : Nat → Duo Location → Duo Location
  | 0, hands => hands
  | n + 1, hands => c.onHands slice (c.onHandsN slice n hands)

def onMotionsN (c : Cap) (slice : Slice) : Nat → Motions → Motions
  | 0, ms => ms
  | n + 1, ms => c.onMotions slice (c.onMotionsN slice n ms)

end Cap

end KineticAlphabet
