/-!
Double precision numbers, exactly. A double is a sign and the rank of its magnitude: rank 0 is
zero, each next rank is the next larger double, and the last rank is infinity. So two doubles of
one sign compare as their ranks do, and rounding is the choice of a rank. Magnitudes are rational
numbers, so nothing here depends on a machine's arithmetic.
-/
namespace KineticAlphabet

namespace Binary64

/-- How many ranks a binade holds: two to the power of 52. -/
def binade : Nat := 0x10000000000000

/-- The rank of infinity, one above the largest finite magnitude. -/
def infinityRank : Nat := 2047 * binade

/-- How many units of its grid a magnitude holds: 53 bits, fewer only on the finest grid. -/
def mantissa (rank : Nat) : Nat :=
  if rank < binade then rank else binade + rank % binade

/-- The exponent of the unit of a magnitude's grid. The finest grid serves the first two binades. -/
def exponent (rank : Nat) : Int := (max 1 (rank / binade) : Nat) - 1075

/-- The magnitude at a rank. At `infinityRank` it is `2 ^ 1024`, the next point of the last grid. -/
def magnitude (rank : Nat) : Rat := (mantissa rank : Rat) * (2 : Rat) ^ exponent rank

/-- The exponent `e` with `2 ^ e ≤ x < 2 ^ (e + 1)`, for a positive `x`. -/
def floorLog2 (x : Rat) : Int :=
  let guess : Int := (x.num.natAbs.log2 : Int) - (x.den.log2 : Int)
  if (2 : Rat) ^ guess ≤ x then guess else guess - 1

def roundHalfEven (x : Rat) : Int :=
  let below := x.floor
  let rest := x - below
  if rest < 1 / 2 then below
  else if 1 / 2 < rest then below + 1
  else if below % 2 = 0 then below else below + 1

/-- The exponent of the grid on which a magnitude is rounded: 53 bits are kept while there are. -/
def gridExponent (x : Rat) : Int := max (-1074) (floorLog2 x - 52)

/-- The rank of the double nearest to a magnitude, of two equally near ones the even one. What
rounds beyond the last finite double becomes infinite. -/
def nearestRank (x : Rat) : Nat :=
  if x ≤ 0 then 0
  else
    let e := gridExponent x
    min infinityRank ((e + 1074).toNat * binade + (roundHalfEven (x * (2 : Rat) ^ (-e))).toNat)

theorem nearestRank_lt (x : Rat) : nearestRank x < infinityRank + 1 := by
  unfold nearestRank
  split
  · simp [infinityRank]
  · exact Nat.lt_succ_of_le (Nat.min_le_left _ _)

end Binary64

/-- A double: no number, or a sign with the rank of a magnitude. -/
inductive Binary64
  | nan
  | ranked (negative : Bool) (rank : Fin (Binary64.infinityRank + 1))
deriving DecidableEq

namespace Binary64

/-- The double nearest to a magnitude, with a sign that zero keeps too. -/
def ofMagnitude (negative : Bool) (x : Rat) : Binary64 :=
  .ranked negative ⟨nearestRank x, nearestRank_lt x⟩

def ofRat (x : Rat) : Binary64 := ofMagnitude (decide (x < 0)) x.abs

def infinity (negative : Bool) : Binary64 := .ranked negative ⟨infinityRank, by simp⟩

def zero (negative : Bool) : Binary64 := .ranked negative ⟨0, by simp⟩

instance : Inhabited Binary64 := ⟨zero false⟩

def toRat? : Binary64 → Option Rat
  | nan => none
  | ranked negative rank =>
    if rank.val = infinityRank then none
    else some (if negative then -magnitude rank else magnitude rank)

def isFinite (x : Binary64) : Bool := x.toRat?.isSome

def neg : Binary64 → Binary64
  | nan => nan
  | ranked negative rank => ranked (!negative) rank

def abs : Binary64 → Binary64
  | nan => nan
  | ranked _ rank => ranked false rank

/-- The place of a double among all doubles but `nan`; both zeros are at place 0. -/
def place? : Binary64 → Option Int
  | nan => none
  | ranked negative rank => some (if negative then -(rank.val : Int) else rank.val)

def lt (x y : Binary64) : Bool :=
  match x.place?, y.place? with
  | some i, some j => i < j
  | _, _ => false

/-- The difference of two doubles, rounded. -/
def sub (x y : Binary64) : Binary64 :=
  match x, y with
  | nan, _ => nan
  | _, nan => nan
  | ranked nx rx, ranked ny ry =>
    match (ranked nx rx).toRat?, (ranked ny ry).toRat? with
    | some a, some b =>
      -- equal numbers differ by positive zero, unless a positive zero is taken off a negative one
      if a = b then zero (nx && !ny && rx.val = 0) else ofRat (a - b)
    | some _, none => infinity (!ny)
    | none, some _ => infinity nx
    | none, none => if nx = ny then nan else infinity nx

/-- Whether two doubles compare as equal, as both zeros do and `nan` never does. -/
def equal (x y : Binary64) : Bool :=
  match x.place?, y.place? with
  | some i, some j => i = j
  | _, _ => false

def doubled : Binary64 → Binary64
  | nan => nan
  | ranked negative rank => ofMagnitude negative (2 * magnitude rank)

def halved : Binary64 → Binary64
  | nan => nan
  | ranked negative rank =>
    if rank.val = infinityRank then infinity negative
    else ofMagnitude negative (magnitude rank / 2)

def trunc : Binary64 → Binary64
  | nan => nan
  | ranked negative rank =>
    if rank.val = infinityRank then infinity negative
    else ofMagnitude negative (magnitude rank).floor

/-- What is left of the whole part. Infinity leaves `nan`. -/
def fract (x : Binary64) : Binary64 := x.sub x.trunc

def floor? (x : Binary64) : Option Int := x.toRat?.map Rat.floor

def floor : Binary64 → Binary64
  | nan => nan
  | ranked negative rank =>
    if rank.val = infinityRank then infinity negative
    else ofMagnitude negative
      (if negative then (magnitude rank).ceil else (magnitude rank).floor)

/-- The smaller of two doubles, of which `nan` counts as missing. -/
def smaller (x y : Binary64) : Binary64 :=
  match x, y with
  | nan, y => y
  | x, nan => x
  | x, y => if y.lt x then y else x

/-- The conversion to whole numbers up to a limit. What is below them becomes zero, as `nan` does,
and what is above them the limit. -/
def saturate (limit : Nat) : Binary64 → Nat
  | ranked false rank => min limit (magnitude rank).floor.toNat
  | _ => 0

end Binary64

end KineticAlphabet
