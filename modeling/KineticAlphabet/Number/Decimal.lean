import KineticAlphabet.Number.Binary64
/-!
Decimal numerals: runs of digits and what they are worth, the two layouts of a decimal number, and
the numerals that are read as a natural number or as a double.
-/
namespace KineticAlphabet

/-- The number `digits * 10 ^ exponent`. -/
structure Decimal where
  digits : Nat
  exponent : Int
deriving DecidableEq

namespace Decimal

/-- What a run of digits is worth, the first being the highest. -/
def worth (cs : List Char) : Nat :=
  cs.foldl (fun n c => 10 * n + (c.toNat - '0'.toNat)) 0

def spanDigits (cs : List Char) : List Char × List Char :=
  (cs.takeWhile Char.isDigit, cs.dropWhile Char.isDigit)

def numeral (n : Nat) : List Char := Nat.toDigits 10 n

def value (d : Decimal) : Rat := (d.digits : Rat) * (10 : Rat) ^ d.exponent

/-- How many digits stand in front of the decimal point; negative when zeros follow it first. -/
def pointPlace (d : Decimal) : Int := (numeral d.digits).length + d.exponent

/-- All digits around a point, with `.0` behind a whole number where a fraction is asked for. -/
def positional (withFraction : Bool) (d : Decimal) : String :=
  let ds := numeral d.digits
  let zeros (n : Nat) : List Char := List.replicate n '0'
  if 0 ≤ d.exponent then
    String.ofList (ds ++ zeros d.exponent.toNat ++ if withFraction then ['.', '0'] else [])
  else if 0 < d.pointPlace then
    let whole := d.pointPlace.toNat
    String.ofList (ds.take whole ++ '.' :: ds.drop whole)
  else
    String.ofList ('0' :: '.' :: zeros (-d.pointPlace).toNat ++ ds)

def scientific (d : Decimal) : String :=
  let ds := numeral d.digits
  let power := d.pointPlace - 1
  let tail := if 1 < ds.length then '.' :: ds.drop 1 else []
  let sign := if power < 0 then '-' else '+'
  String.ofList (ds.take 1 ++ tail ++ 'e' :: sign :: numeral power.natAbs)

def spanSign : List Char → Bool × List Char
  | '-' :: cs => (true, cs)
  | '+' :: cs => (false, cs)
  | cs => (false, cs)

/-- A natural number: digits, after a plus sign if there is one. -/
def natural? (cs : List Char) : Option Nat :=
  let body := match cs with
    | '+' :: cs => cs
    | cs => cs
  if body.isEmpty || !body.all Char.isDigit then none else some (worth body)

/-- A whole number that 32 bits hold: digits, after a sign if there is one. -/
def int32? (cs : List Char) : Option Int :=
  let (negative, body) := spanSign cs
  if body.isEmpty || !body.all Char.isDigit then none
  else
    let n : Int := if negative then -(worth body : Int) else worth body
    if -2147483648 ≤ n ∧ n ≤ 2147483647 then some n else none

def power? : List Char → Option Int
  | [] => some 0
  | c :: cs =>
    if c = 'e' || c = 'E' then
      let (negative, ds) := spanSign cs
      if ds.isEmpty || !ds.all Char.isDigit then none
      else some (if negative then -(worth ds : Int) else worth ds)
    else none

/-- The decimal number that a numeral without a sign writes. The point may stand first or last, but
not alone. -/
def unsigned? (cs : List Char) : Option Decimal :=
  let (whole, rest) := spanDigits cs
  let (fraction, rest) := match rest with
    | '.' :: rest => spanDigits rest
    | rest => ([], rest)
  if whole.isEmpty && fraction.isEmpty then none
  else (power? rest).map fun power => ⟨worth (whole ++ fraction), power - fraction.length⟩

end Decimal

namespace Binary64

/-- The double nearest to a decimal number. -/
def ofDecimal (negative : Bool) (d : Decimal) : Binary64 :=
  -- what surely rounds to zero or to infinity is told without its power of ten
  if d.digits = 0 || d.pointPlace < -330 then zero negative
  else if 310 < d.pointPlace then infinity negative
  else ofMagnitude negative d.value

/-- The double that a numeral writes: `inf`, `infinity` and `nan` in any case, or a decimal number,
each after a sign if there is one. -/
def read? (cs : List Char) : Option Binary64 :=
  let (negative, body) := Decimal.spanSign cs
  let name := String.ofList (body.map Char.toLower)
  if name = "inf" || name = "infinity" then some (infinity negative)
  else if name = "nan" then some nan
  else (Decimal.unsigned? body).map (ofDecimal negative)

end Binary64

end KineticAlphabet
