/-!
Sources of random values. What is generated only depends on the values drawn, so it is written over
any source, and everything said about it holds whatever the source yields.
-/
namespace KineticAlphabet.Random

inductive Chance
  | half
  | fifth
deriving DecidableEq, Repr

/-- How wide the numbers of a draw are: half a word of 32 bits, or a whole one. -/
inductive Width
  | half
  | full
deriving DecidableEq, Repr

def Width.size : Width → Nat
  | half => UInt16.size
  | full => UInt32.size

/-- A source of random values with its state: numbers of some width up to a largest one, and
answers. -/
structure Source (σ : Type) where
  upTo : Width → (largest : Nat) → StateM σ (Fin (largest + 1))
  yes : Chance → StateM σ Bool

end KineticAlphabet.Random
