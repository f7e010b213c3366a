import KineticAlphabet.Text.Blank
/-!
The letters of the alphabet and their six types. The order of the alphabet is that of the types, and
inside a type that of its table. A text that is no letter counts as one of the first type.
-/
namespace KineticAlphabet

inductive LetterType
  | type1
  | type2
  | type3
  | type4
  | type5
  | type6
deriving DecidableEq, Repr

namespace LetterType

def all : List LetterType := [type1, type2, type3, type4, type5, type6]

def number : LetterType → Nat
  | type1 => 1
  | type2 => 2
  | type3 => 3
  | type4 => 4
  | type5 => 5
  | type6 => 6

def ofNumber? (n : Nat) : Option LetterType := all.find? (·.number == n)

def name : LetterType → String
  | type1 => "Type1"
  | type2 => "Type2"
  | type3 => "Type3"
  | type4 => "Type4"
  | type5 => "Type5"
  | type6 => "Type6"

def ofName? (s : String) : Option LetterType := all.find? (·.name == s)

def description : LetterType → String
  | type1 => "Dual-Shift"
  | type2 => "Shift"
  | type3 => "Cross-Shift"
  | type4 => "Dash"
  | type5 => "Dual-Dash"
  | type6 => "Static"

end LetterType

/-- A letter of the alphabet. The cross letters join a shift with a dash, the dual ones two
dashes. -/
inductive Letter
  | A | B | C | D | E | F | G | H | I | J | K | L | M | N | O | P | Q | R | S | T | U | V
  | W | X | Y | Z | sigma | delta | theta | omega
  | crossW | crossX | crossY | crossZ | crossSigma | crossDelta | crossTheta | crossOmega
  | phi | psi | lambda
  | dualPhi | dualPsi | dualLambda
  | alpha | beta | gamma
deriving DecidableEq, Repr

namespace Letter

def ofType : LetterType → List Letter
  | .type1 => [A, B, C, D, E, F, G, H, I, J, K, L, M, N, O, P, Q, R, S, T, U, V]
  | .type2 => [W, X, Y, Z, sigma, delta, theta, omega]
  | .type3 => [crossW, crossX, crossY, crossZ, crossSigma, crossDelta, crossTheta, crossOmega]
  | .type4 => [phi, psi, lambda]
  | .type5 => [dualPhi, dualPsi, dualLambda]
  | .type6 => [alpha, beta, gamma]

def all : List Letter := LetterType.all.flatMap ofType

def letterType : Letter → LetterType
  | A | B | C | D | E | F | G | H | I | J | K | L | M | N | O | P | Q | R | S | T | U | V => .type1
  | W | X | Y | Z | sigma | delta | theta | omega => .type2
  | crossW | crossX | crossY | crossZ | crossSigma | crossDelta | crossTheta | crossOmega => .type3
  | phi | psi | lambda => .type4
  | dualPhi | dualPsi | dualLambda => .type5
  | alpha | beta | gamma => .type6

def text : Letter → String
  | A => "A" | B => "B" | C => "C" | D => "D" | E => "E" | F => "F" | G => "G" | H => "H"
  | I => "I" | J => "J" | K => "K" | L => "L" | M => "M" | N => "N" | O => "O" | P => "P"
  | Q => "Q" | R => "R" | S => "S" | T => "T" | U => "U" | V => "V"
  | W => "W" | X => "X" | Y => "Y" | Z => "Z"
  | sigma => "Σ" | delta => "Δ" | theta => "θ" | omega => "Ω"
  | crossW => "W-" | crossX => "X-" | crossY => "Y-" | crossZ => "Z-"
  | crossSigma => "Σ-" | crossDelta => "Δ-" | crossTheta => "θ-" | crossOmega => "Ω-"
  | phi => "Φ" | psi => "Ψ" | lambda => "Λ"
  | dualPhi => "Φ-" | dualPsi => "Ψ-" | dualLambda => "Λ-"
  | alpha => "α" | beta => "β" | gamma => "Γ"

def ofText? (s : String) : Option Letter :=
  let t := Text.trim s
  all.find? (·.text == t)

/-- The place of a letter in the alphabet. -/
def order (l : Letter) : Nat := all.idxOf l

theorem mem_all (l : Letter) : l ∈ all := by cases l <;> decide

theorem mem_ofType_iff (l : Letter) (t : LetterType) : l ∈ ofType t ↔ l.letterType = t := by
  cases t <;> cases l <;> decide

end Letter

/-- The type of the letter that a text writes, the first type if it writes none. -/
def LetterType.ofText (s : String) : LetterType :=
  ((Letter.ofText? s).map Letter.letterType).getD .type1

/-- How many letters of each type there are, how many in all, and how many texts were no letters. -/
structure LetterCounts where
  perType : List (LetterType × Nat)
  total : Nat
  unknown : Nat

namespace LetterCounts

def ofAlphabet : LetterCounts :=
  { perType := LetterType.all.map fun t => (t, (Letter.ofType t).length)
    total := Letter.all.length
    unknown := 0 }

/-- The counts of some texts. What is no letter counts to the first type too. -/
def ofTexts (ss : List String) : LetterCounts :=
  { perType := LetterType.all.map fun t => (t, (ss.filter (LetterType.ofText · == t)).length)
    total := ss.length
    unknown := (ss.filter (Letter.ofText? · |>.isNone)).length }

def count (c : LetterCounts) (t : LetterType) : Nat :=
  ((c.perType.find? (·.1 == t)).map (·.2)).getD 0

end LetterCounts

end KineticAlphabet
