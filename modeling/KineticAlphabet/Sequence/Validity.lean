import KineticAlphabet.Sequence.Basic
/-!
When a sequence is valid: the beats are numbered from one, every beat that is not blank has both
motions with the end orientations that follow, and starts where the last such beat or the start
position ended. A closed sequence also ends at the locations where it started. The check walks the
beats in order and names the first violation.
-/
namespace KineticAlphabet

inductive Violation
  | nonContiguous (expected found : Nat)
  | missingMotion (beat : Nat)
  | orientationInvariant (beat : Nat) (actor : Actor)
  | locationDiscontinuity (beat : Nat) (actor : Actor)
  | orientationDiscontinuity (beat : Nat) (actor : Actor)
  | notClosed
deriving DecidableEq, Repr

def Violation.message : Violation → String
  | .nonContiguous expected found =>
    s!"Beat numbers not contiguous: expected {expected}, found {found}"
  | .missingMotion beat => s!"Beat {beat} is missing a motion"
  | .orientationInvariant beat actor =>
    s!"Beat {beat}: {actor.title} end orientation does not follow from its motion"
  | .locationDiscontinuity beat actor =>
    s!"Beat {beat}: {actor.title} does not start where the previous beat ended"
  | .orientationDiscontinuity beat actor =>
    s!"Beat {beat}: {actor.title} orientation does not continue from the previous beat"
  | .notClosed => "Sequence does not return to its start position"

namespace Beat

/-- A motion of a beat, checked: it is there and its end orientation is the one that follows. -/
def checkMotion (b : Beat) (actor : Actor) : Except Violation Motion :=
  match b.motions.get actor with
  | none => .error (.missingMotion b.number)
  | some m => if m.Consistent then .ok m else .error (.orientationInvariant b.number actor)

def checkMotions (b : Beat) : Except Violation (Duo Motion) := do
  let blue ← b.checkMotion .blue
  let red ← b.checkMotion .red
  return ⟨blue, red⟩

end Beat

/-- Whether two values agree for both actors, and if not, which is the first to differ. -/
def Duo.firstDifference {α : Type} [DecidableEq α] (d e : Duo α) : Option Actor :=
  Actor.all.find? fun a => d.get a ≠ e.get a

/-- The check that a beat goes on where another state ended: the locations first. -/
def checkContinuity (beat : Nat) (before after : Duo Stance) : Except Violation Unit :=
  match (before.map Stance.location).firstDifference (after.map Stance.location) with
  | some actor => .error (.locationDiscontinuity beat actor)
  | none =>
    match (before.map Stance.orientation).firstDifference (after.map Stance.orientation) with
    | some actor => .error (.orientationDiscontinuity beat actor)
    | none => .ok ()

namespace Sequence

/-- What the check knows on its way: the first state of the sequence and the last. There is none
before the first beat with motions. -/
structure Course where
  first : Duo Stance
  last : Duo Stance
deriving DecidableEq, Repr

def checkBeat (expected : Nat) (course : Option Course) (b : Beat) :
    Except Violation (Option Course) :=
  if b.number ≠ expected then .error (.nonContiguous expected b.number)
  else if b.isBlank then .ok course
  else do
    let ms ← b.checkMotions
    let start := ms.map Motion.startStance
    let stop := ms.map Motion.endStance
    match course with
    | none => return some ⟨start, stop⟩
    | some c => do
      checkContinuity b.number c.last start
      return some { c with last := stop }

def checkBeats : Nat → Option Course → List Beat → Except Violation (Option Course)
  | _, course, [] => .ok course
  | expected, course, b :: bs => do
    let course ← checkBeat expected course b
    checkBeats (expected + 1) course bs

def startCourse : Option Beat → Except Violation (Option Course)
  | none => .ok none
  | some b => do
    let ms ← b.checkMotions
    let stop := ms.map Motion.endStance
    return some ⟨stop, stop⟩

/-- The validity check, which asks for a return to the first locations where it should be closed. -/
def validate (s : Sequence) (closed : Bool) : Except Violation Unit := do
  let course ← startCourse s.startPosition
  let course ← checkBeats 1 course s.beats
  match course with
  | none => return ()
  | some c =>
    if closed && c.first.locations ≠ c.last.locations then .error .notClosed else .ok ()

end Sequence

end KineticAlphabet
