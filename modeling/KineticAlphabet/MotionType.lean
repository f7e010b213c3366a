import KineticAlphabet.Text.Blank
/-!
The five motion types, and the blends that a raw type text may ask for. A raw text is cut at
underscores, hyphens, plus signs and blanks, and its tokens decide, in any case and order.
-/
namespace KineticAlphabet

/-- How hand and prop move during a beat. A shift goes a quarter round the ring: with `pro` the prop
spins as the hand turns, with `anti` against it, with `float` not on its own. -/
inductive MotionType
  | pro
  | anti
  | static
  | dash
  | float
deriving DecidableEq, Repr

namespace MotionType

def all : List MotionType := [pro, anti, static, dash, float]

def name : MotionType → String
  | pro => "pro"
  | anti => "anti"
  | static => "static"
  | dash => "dash"
  | float => "float"

def ofName? (s : String) : Option MotionType := all.find? (·.name == s)

/-- The type that a text names, in any case and between blanks. Any other text is read as `pro`. -/
def read (text : String) : MotionType := (ofName? (Text.bare text)).getD pro

def isShift : MotionType → Bool
  | pro | anti | float => true
  | static | dash => false

def complement : MotionType → MotionType
  | pro => anti
  | anti => pro
  | t => t

end MotionType

/-- Motions joined in one: pro with anti, or a change of direction for both. -/
inductive Blend
  | single
  | proAnti
  | both
deriving DecidableEq, Repr

namespace Blend

def all : List Blend := [single, proAnti, both]

def name : Blend → String
  | single => "single"
  | proAnti => "pro_anti"
  | both => "both"

def ofName? (s : String) : Option Blend := all.find? (·.name == s)

def isSeparator (c : Char) : Bool := c = '_' || c = '-' || c = '+' || Text.isBlank c

/-- The tokens of a raw type text in small letters, empty ones between two separators too. -/
def tokens (raw : String) : List String :=
  ((Text.lower raw).toList.splitOnP isSeparator).map String.ofList

def words (raw : String) : List String := (tokens raw).filter fun w => !w.isEmpty

def ofWords (ws : List String) : Blend :=
  if ws.contains "both" then both
  else if ws.contains "pro" && ws.contains "anti" then proAnti
  else single

def ofRaw (raw : String) : Blend := ofWords (words raw)

/-- The first motion type among the tokens of a raw type text, `pro` where there is none. -/
def baseType (raw : String) : MotionType :=
  let named := (tokens raw).find? ["pro", "anti", "static", "dash", "float"].contains
  (named.map MotionType.read).getD .pro

/-- How many reversals a blend holds at least. -/
def reversalFloor : Blend → Nat
  | single => 0
  | proAnti => 1
  | both => 2

end Blend

end KineticAlphabet
