import KineticAlphabet.Json.Read
import KineticAlphabet.Text.Blank
/-!
Turns of a prop, counted in half turns so that nothing is rounded, or a float, which has no count.
A number is a turn count if it is finite, not negative and a multiple of a half, and if its half
turns fit into 32 bits.
-/
namespace KineticAlphabet

/-- How often a prop turns during a motion: a number of half turns, or a float. -/
inductive Turns
  | half (count : UInt32)
  | float
deriving DecidableEq, Repr

namespace Turns

def zero : Turns := half 0

/-- A number of whole turns, of which there are at most 65535. -/
def whole (n : UInt16) : Turns := half (2 * n.toUInt32)

def toRat? : Turns → Option Rat
  | half n => some ((n.toNat : Rat) / 2)
  | float => none

def value? : Turns → Option Binary64
  | half n => some (Binary64.ofRat n.toNat).halved
  | float => none

def wholePart : Turns → Nat
  | half n => n.toNat / 2
  | float => 0

def hasHalf : Turns → Bool
  | half n => n.toNat % 2 = 1
  | float => false

def isFloat : Turns → Bool
  | half _ => false
  | float => true

def isZero : Turns → Bool
  | half n => n = 0
  | float => false

def most : Nat := 4294967295

/-- The turns that a number counts. A refusal names the number. -/
def ofNumber (x : Binary64) : Except ReadError Turns :=
  if !x.isFinite || x.lt (.zero false) then .error (.invalidTurns x.plainText)
  else
    -- what is too large doubles to infinity, which leaves no number behind its point
    let doubled := x.doubled
    if !doubled.fract.equal (.zero false) || (Binary64.ofRat most).lt doubled then
      .error (.invalidTurns x.plainText)
    else .ok (half (.ofNat (doubled.saturate most)))

/-- The turns that a text names: `fl` or `float` in any case, or a number. A refusal names the whole
text if it is no number. -/
def read (text : String) : Except ReadError Turns :=
  let body := Text.trimChars text.toList
  let name := String.ofList (body.map Char.toLower)
  if name = "fl" ∨ name = "float" then .ok float
  else match Binary64.read? body with
    | some x => ofNumber x
    | none => .error (.invalidTurns text)

def ofDoc : Json.Doc → Except ReadError Turns
  | .int n => ofNumber (.ofRat n)
  | .float x => ofNumber x
  | .str s => read s
  | _ => .error .malformed

def toJson : Turns → Json
  | half n => .float (Binary64.ofRat n.toNat).halved
  | float => .str "fl"

def text : Turns → String
  | half n =>
    let digits := String.ofList (Decimal.numeral (n.toNat / 2))
    if n.toNat % 2 = 0 then digits else digits ++ ".5"
  | float => "fl"

end Turns

end KineticAlphabet
