import KineticAlphabet.Number.Decimal
/-!
JSON numbers. A number without fraction and power of ten is a whole number while it fits into 64
bits; any other is a double. The double is not always the nearest one: the digits that fit into 64
bits are rounded to a double, which is then multiplied or divided by a rounded power of ten.
-/
namespace KineticAlphabet.Json

structure Numeral where
  negative : Bool
  whole : List Char
  fraction : Option (List Char)
  power : Option (Bool × List Char)

/-- What a number's text stands for. -/
inductive Number
  | int (n : Int)
  | float (x : Binary64)
  | outOfRange

namespace Numeral

def fraction? : List Char → Option (Option (List Char) × List Char)
  | '.' :: cs =>
    let (ds, rest) := Decimal.spanDigits cs
    if ds.isEmpty then none else some (some ds, rest)
  | cs => some (none, cs)

def power? : List Char → Option (Option (Bool × List Char) × List Char)
  | [] => some (none, [])
  | c :: cs =>
    if c = 'e' || c = 'E' then
      let (negative, cs) := Decimal.spanSign cs
      let (ds, rest) := Decimal.spanDigits cs
      if ds.isEmpty then none else some (some (negative, ds), rest)
    else some (none, c :: cs)

/-- The number at the front of a text, and the rest. A zero in front of further digits is none. -/
def span? (cs : List Char) : Option (Numeral × List Char) := do
  let (negative, cs) := match cs with
    | '-' :: cs => (true, cs)
    | cs => (false, cs)
  let (whole, cs) := Decimal.spanDigits cs
  if whole.isEmpty || (whole.head? = some '0' && 1 < whole.length) then none
  else
    let (fraction, cs) ← fraction? cs
    let (power, cs) ← power? cs
    return (⟨negative, whole, fraction, power⟩, cs)

/-- Digits appended to a number while it fits into 64 bits, and how many did not. -/
def gather : List Char → Nat → Nat × Nat
  | [], n => (n, 0)
  | c :: cs, n =>
    let next := Decimal.worth [c] + 10 * n
    if next < UInt64.size then gather cs next else (n, (c :: cs).length)

def tenRank (power : Nat) : Nat := Binary64.nearestRank ((10 : Rat) ^ (power : Int))

def mulRank (r s : Nat) : Nat := Binary64.nearestRank (Binary64.magnitude r * Binary64.magnitude s)

def divRank (r s : Nat) : Nat := Binary64.nearestRank (Binary64.magnitude r / Binary64.magnitude s)

/-- A rank divided by a power of ten, by `10 ^ 308` at a time. Three such steps take every 64-bit
number to zero, so more rounds are not needed. -/
def shrink : Nat → Nat → Nat → Nat
  | 0, _, _ => 0
  | rounds + 1, rank, power =>
    if power ≤ 308 then divRank rank (tenRank power)
    else shrink rounds (divRank rank (tenRank 308)) (power - 308)

def scaled (negative : Bool) (significand : Nat) (power : Int) : Number :=
  let rank := Binary64.nearestRank significand
  let float (r : Nat) : Number := .float (.ofMagnitude negative (Binary64.magnitude r))
  if significand = 0 then .float (.zero negative)
  else if power < 0 then float (shrink 4 rank power.natAbs)
  else if 308 < power then .outOfRange
  else
    let r := mulRank rank (tenRank power.toNat)
    if r = Binary64.infinityRank then .outOfRange else float r

def value (n : Numeral) : Number :=
  -- whole digits beyond 64 bits count as powers of ten
  let (significand, dropped) := gather n.whole 0
  match n.fraction, n.power with
  | none, none =>
    if dropped ≠ 0 then scaled n.negative significand dropped
    else if !n.negative then .int significand
    else if significand = 0 || UInt64.size / 2 < significand then scaled true significand 0
    else .int (-significand)
  | fraction, power =>
    let ds := fraction.getD []
    -- digits of the fraction beyond 64 bits do not count at all
    let (significand, skipped) := gather ds significand
    let places : Int := dropped - (ds.length - skipped : Nat)
    match power with
    | none => scaled n.negative significand places
    | some (down, es) =>
      let e := Decimal.worth es
      -- a power of ten has at most 31 bits
      if UInt32.size / 2 ≤ e then
        if significand ≠ 0 && !down then .outOfRange else .float (.zero n.negative)
      else scaled n.negative significand (if down then places - e else places + e)

end Numeral

end KineticAlphabet.Json
