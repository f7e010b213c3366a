import KineticAlphabet.Beat
/-!
Reversals: changes of direction. A pictograph shows as many as the strongest of its signs tells, and
never more than two. The signs of a motion are its blend, the changes of direction along its path
and a quarter of its half turns; the sign of the context is one for each actor whose spin differs
from the last one before.
-/
namespace KineticAlphabet

def maxReversals : Nat := 2

/-- The displacement below which a segment of a path has no direction. -/
def Point.threshold : Binary64 := .ofRat (1 / 100)

/-- Whether a segment of a path goes right; none if it hardly goes aside at all. -/
def Point.rightward? (a b : Point) : Option Bool :=
  let dx := b.x.sub a.x
  if dx.abs.lt threshold then none else some ((Binary64.zero false).lt dx)

def neighbours {α : Type} (xs : List α) : List (α × α) := xs.zip xs.tail

/-- A path as far as it was followed: the direction of the last segment that had one, and how often
the direction has changed, which is counted in 32 bits. -/
structure Trail where
  heading : Option Bool
  changes : UInt32
deriving DecidableEq, Repr

namespace Trail

def empty : Trail := ⟨none, 0⟩

/-- One more segment. One that has no direction is passed over, so the next is compared with the
last one before it that had. -/
def follow (t : Trail) (segment : Point × Point) : Trail :=
  match segment.1.rightward? segment.2 with
  | none => t
  | some right => ⟨some right, if t.heading.any (· ≠ right) then t.changes + 1 else t.changes⟩

end Trail

def pathReversals (path : List Point) : Nat :=
  min maxReversals ((neighbours path).foldl Trail.follow .empty).changes.toNat

/-- The reversals that turns ask for: one for every two turns, where there is more than one turn. -/
def Turns.reversals (t : Turns) : Nat :=
  match t.value? with
  | some x =>
    if (Binary64.ofRat 1).lt x then
      (x.halved.floor.smaller (.ofRat maxReversals)).saturate 255
    else 0
  | none => 0

def Motion.reversals (m : Motion) : Nat :=
  max m.blend.reversalFloor (max ((m.path.map pathReversals).getD 0) m.turns.reversals)

def Motion.spinning? (m : Motion) : Option Rotation := if m.spin.spins then some m.spin else none

def Duo.spinning? (ms : Motions) (actor : Actor) : Option Rotation :=
  (ms.get actor).bind Motion.spinning?

def lastSpin? (history : List Beat) (actor : Actor) : Option Rotation :=
  history.reverse.findSome? fun b => b.motions.spinning? actor

/-- Whether an actor spins against the direction in which it spun last. -/
def reverses (ms : Motions) (history : List Beat) (actor : Actor) : Bool :=
  match ms.spinning? actor, lastSpin? history actor with
  | some now, some before => now ≠ before
  | _, _ => false

def reversalFlags (ms : Motions) (history : List Beat) : Duo Bool := .ofFn (reverses ms history)

def countReversals (ms : Motions) (history : List Beat) : Nat :=
  let byMotion := ms.toList.map fun m? => (m?.map Motion.reversals).getD 0
  let byContext := Beat.flagCount (reversalFlags ms history)
  min maxReversals (max (byMotion.foldl max 0) byContext)

end KineticAlphabet
