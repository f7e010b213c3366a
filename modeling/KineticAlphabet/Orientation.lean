import KineticAlphabet.Text.Blank
/-!
Orientations of a prop: two radial ones, in and out, and two along the ring, clock and counter. They
form a cycle in, counter, out, clock.
-/
namespace KineticAlphabet

/-- How a prop points at its location. -/
inductive Orientation
  | inward
  | outward
  | clock
  | counter
deriving DecidableEq, Repr

/-- Along the radius or along the ring. -/
inductive Orientation.Category
  | radial
  | rotational
deriving DecidableEq, Repr

namespace Orientation

def all : List Orientation := [inward, outward, clock, counter]

def name : Orientation → String
  | inward => "in"
  | outward => "out"
  | clock => "clock"
  | counter => "counter"

/-- The orientation that a text names, in any case and between blanks. Any other text is read as
`in`. -/
def read (text : String) : Orientation := (all.find? (·.name == Text.bare text)).getD inward

def category : Orientation → Category
  | inward | outward => .radial
  | clock | counter => .rotational

def flipped : Orientation → Orientation
  | inward => outward
  | outward => inward
  | clock => counter
  | counter => clock

/-- The mirror image: the sense along the ring changes. -/
def mirrored : Orientation → Orientation
  | clock => counter
  | counter => clock
  | o => o

def next : Orientation → Orientation
  | inward => counter
  | counter => outward
  | outward => clock
  | clock => inward

def previous : Orientation → Orientation
  | inward => clock
  | clock => outward
  | outward => counter
  | counter => inward

@[simp] theorem mirrored_mirrored (o : Orientation) : o.mirrored.mirrored = o := by cases o <;> rfl

namespace Category

def all : List Category := [radial, rotational]

def name : Category → String
  | radial => "radial"
  | rotational => "rotational"

def ofName? (s : String) : Option Category := all.find? (·.name == s)

end Category

end Orientation

end KineticAlphabet
