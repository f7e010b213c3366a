import KineticAlphabet.Number.Decimal
/-!
The shortest decimal of a double: of all decimal numbers that round to it, one with the fewest
digits, and of those the nearest. It lies on the coarsest power-of-ten grid that meets the interval
of numbers rounding to the double, and there it is one of the two grid points around the double.
-/
namespace KineticAlphabet.Binary64

/-- Which of two equally near decimals is taken. -/
inductive Tie
  | up
  | even
deriving DecidableEq

def halfway (rank : Nat) : Rat := (magnitude rank + magnitude (rank + 1)) / 2

/-- Whether a number rounds to the double at a positive rank. The ends of the interval go to the
even neighbour. -/
def roundsTo (rank : Nat) (x : Rat) : Bool :=
  let low := halfway (rank - 1)
  let high := halfway rank
  if rank % 2 = 0 then decide (low ≤ x ∧ x ≤ high) else decide (low < x ∧ x < high)

/-- The nearest decimal with a given power of ten that rounds to the double at a rank. -/
def nearestOnGrid (tie : Tie) (rank : Nat) (power : Int) : Option Decimal :=
  let x := magnitude rank
  let unit := (10 : Rat) ^ power
  let below := (x / unit).floor
  let low := below * unit
  let high := (below + 1) * unit
  let down : Decimal := ⟨below.toNat, power⟩
  let up : Decimal := ⟨(below + 1).toNat, power⟩
  match roundsTo rank low, roundsTo rank high with
  | false, false => none
  | true, false => some down
  | false, true => some up
  | true, true =>
    if x - low < high - x then some down
    else if high - x < x - low then some up
    else match tie with
      | .up => some up
      | .even => some (if below % 2 = 0 then down else up)

/-- The shortest decimal of the double at a positive rank. -/
def shortest (tie : Tie) (rank : Nat) : Decimal :=
  let x := magnitude rank
  let top : Int := ((Decimal.numeral x.num.natAbs).length : Int) -
    (Decimal.numeral x.den).length + 1
  -- seventeen digits always suffice
  ((List.range 20).findSome? fun (step : Nat) => nearestOnGrid tie rank (top - step)).getD ⟨0, 0⟩

/-- The text of a double in a message: positional always, no fraction behind a whole number, and an
equally near decimal taken upwards. -/
def plainText : Binary64 → String
  | nan => "NaN"
  | ranked negative rank =>
    let sign := if negative then "-" else ""
    if rank.val = infinityRank then sign ++ "inf"
    else if rank.val = 0 then sign ++ "0"
    else sign ++ (shortest .up rank).positional false

end KineticAlphabet.Binary64
