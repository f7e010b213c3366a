import KineticAlphabet.Random.Source
/-!
The ChaCha stream cipher with eight rounds as a source of random values. A seed of 64 bits is spread
over the key by a congruential generator. The stream is that of the blocks with counters 0, 1, 2 and
so on, each of sixteen words, and every draw takes the next word or the next two.
-/
namespace KineticAlphabet.Random

namespace ChaCha

@[inline] def turnLeft (x : UInt32) (n : UInt32) : UInt32 := (x <<< n) ||| (x >>> (32 - n))

/-- Four words, one of each column. -/
structure Row where
  w : UInt32
  x : UInt32
  y : UInt32
  z : UInt32
deriving DecidableEq, Repr

namespace Row

@[inline] def add (r s : Row) : Row := ⟨r.w + s.w, r.x + s.x, r.y + s.y, r.z + s.z⟩

@[inline] def mix (n : UInt32) (r s : Row) : Row :=
  ⟨turnLeft (r.w ^^^ s.w) n, turnLeft (r.x ^^^ s.x) n, turnLeft (r.y ^^^ s.y) n,
    turnLeft (r.z ^^^ s.z) n⟩

@[inline] def shift (r : Row) : Row := ⟨r.x, r.y, r.z, r.w⟩

def toList (r : Row) : List UInt32 := [r.w, r.x, r.y, r.z]

end Row

/-- Sixteen words in four rows. -/
structure Block where
  a : Row
  b : Row
  c : Row
  d : Row
deriving DecidableEq, Repr

namespace Block

def columnRound (s : Block) : Block :=
  let a := s.a.add s.b
  let d := Row.mix 16 s.d a
  let c := s.c.add d
  let b := Row.mix 12 s.b c
  let a := a.add b
  let d := Row.mix 8 d a
  let c := c.add d
  let b := Row.mix 7 b c
  ⟨a, b, c, d⟩

/-- A round of the columns and one of the diagonals, which are brought into columns and back. -/
def doubleRound (s : Block) : Block :=
  let s := s.columnRound
  let s := columnRound ⟨s.a, s.b.shift, s.c.shift.shift, s.d.shift.shift.shift⟩
  ⟨s.a, s.b.shift.shift.shift, s.c.shift.shift, s.d.shift⟩

def add (s t : Block) : Block := ⟨s.a.add t.a, s.b.add t.b, s.c.add t.c, s.d.add t.d⟩

def toList (s : Block) : List UInt32 := s.a.toList ++ s.b.toList ++ s.c.toList ++ s.d.toList

end Block

def constants : Row := ⟨0x61707865, 0x3320646e, 0x79622d32, 0x6b206574⟩

/-- The words of the stream with a counter: eight rounds, added to where they began. -/
def block (low high : Row) (counter : UInt64) : List UInt32 :=
  let start : Block := ⟨constants, low, high, ⟨counter.toUInt32, (counter >>> 32).toUInt32, 0, 0⟩⟩
  (start.doubleRound.doubleRound.doubleRound.doubleRound.add start).toList

def spreadStep (s : UInt64) : UInt64 := s * 6364136223846793005 + 11634580027462260723

def spreadWord (s : UInt64) : UInt32 :=
  let x := (((s >>> 18) ^^^ s) >>> 27).toUInt32
  let n := (s >>> 59).toUInt32
  (x >>> n) ||| (x <<< ((32 - n) % 32))

/-- Four words that a seed is spread over, and the state after them. -/
def spreadRow (s : UInt64) : Row × UInt64 :=
  let s₁ := spreadStep s
  let s₂ := spreadStep s₁
  let s₃ := spreadStep s₂
  let s₄ := spreadStep s₃
  (⟨spreadWord s₁, spreadWord s₂, spreadWord s₃, spreadWord s₄⟩, s₄)

end ChaCha

/-- A place in a stream: the two rows of its key, the counter of the next block, and the words left
of the block before it. -/
structure ChaCha where
  low : ChaCha.Row
  high : ChaCha.Row
  counter : UInt64
  left : List UInt32
deriving DecidableEq, Repr

namespace ChaCha

def ofSeed (seed : UInt64) : ChaCha :=
  let (low, s) := spreadRow seed
  let (high, _) := spreadRow s
  ⟨low, high, 0, []⟩

def word : StateM ChaCha UInt32 := fun s =>
  match s.left with
  | w :: ws => (w, { s with left := ws })
  | [] =>
    match block s.low s.high s.counter with
    | w :: ws => (w, { s with counter := s.counter + 1, left := ws })
    | [] => (0, s)

/-- The next two words as one of 64 bits, the low half first. -/
def doubleWord : StateM ChaCha UInt64 := do
  let low ← word
  let high ← word
  return high.toUInt64 <<< 32 ||| low.toUInt64

/-- A number up to a largest one: the whole part of a word scaled to the range. -/
def upTo (width : Width) (largest : Nat) : StateM ChaCha (Fin (largest + 1)) := do
  let count := largest + 1
  let first := (← word).toNat
  -- the range holds every number of the width: the low end of the word will do
  if count = width.size then return .ofNat (largest + 1) first
  else
    let product := first * count
    let whole := product / UInt32.size
    let fraction := product % UInt32.size
    -- a further word could carry into the whole part
    if UInt32.size - count < fraction then
      let carry := (fraction + (← word).toNat * count / UInt32.size) / UInt32.size
      return .ofNat (largest + 1) (whole + carry)
    else
      return .ofNat (largest + 1) whole

def threshold : Chance → UInt64
  | .half => 9223372036854775808
  | .fifth => 3689348814741910528

def yes (c : Chance) : StateM ChaCha Bool := do return (← doubleWord) < threshold c

def source : Source ChaCha := ⟨upTo, yes⟩

end ChaCha

end KineticAlphabet.Random
