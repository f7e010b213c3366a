import KineticAlphabet.Cap
/-!
Configurations of a generation, and the two checks on them: whether they make sense at all, and
whether they keep to limits.
-/
namespace KineticAlphabet

/-- How a sequence is built: beat by beat, or from a slice that is repeated. -/
inductive Mode
  | freeform
  | circular
deriving DecidableEq, Repr

/-- Whether each actor keeps one direction of spin. -/
inductive Continuity
  | continuous
  | random
deriving DecidableEq, Repr

namespace Mode

def all : List Mode := [freeform, circular]

def name : Mode → String
  | freeform => "freeform"
  | circular => "circular"

def ofName? (s : String) : Option Mode := all.find? (·.name == s)

end Mode

namespace Continuity

def all : List Continuity := [continuous, random]

def name : Continuity → String
  | continuous => "continuous"
  | random => "random"

def ofName? (s : String) : Option Continuity := all.find? (·.name == s)

end Continuity

/-- What a sequence is generated from. The letter types count in freeform mode, CAP type and slice
in circular mode. At level 1 nothing turns, at level 2 there are whole turns up to the intensity, at
level 3 half turns and floats. Without a seed the draws come from outside. -/
structure Config where
  mode : Mode
  length : Nat
  level : Nat
  turnIntensity : Binary64
  grid : Grid
  continuity : Continuity
  letterTypes : List LetterType
  slice : Slice
  cap : Cap
  excludedLetters : List String
  seed : Option UInt64
  maxAttempts : Nat
deriving DecidableEq

/-- How large a configuration may be. -/
structure Limits where
  length : Nat
  attempts : Nat
  turnIntensity : Binary64

/-- The limits for files and the command line. -/
def Limits.standard : Limits := ⟨64, 10000, .ofRat 3⟩

namespace Config

def standard : Config :=
  { mode := .freeform, length := 16, level := 1, turnIntensity := .ofRat 1, grid := .diamond,
    continuity := .continuous, letterTypes := LetterType.all, slice := .halved,
    cap := .strictRotated, excludedLetters := [], seed := none, maxAttempts := 256 }

def circular : Config := { standard with mode := .circular }

def beginner : Config := { standard with length := 8, letterTypes := [.type1, .type6] }

def advanced : Config :=
  { standard with length := 32, level := 3, turnIntensity := .ofRat 2, continuity := .random }

def withCap (c : Config) (cap : Cap) (slice : Slice) : Config :=
  { c with mode := .circular, cap, slice }

/-- How many beats are picked before they are repeated. -/
def sliceLength (c : Config) : Nat :=
  match c.mode with
  | .freeform => c.length
  | .circular => c.length / c.slice.repeats

inductive Fault
  | noBeats
  | level (found : Nat)
  | turnIntensity (found : Binary64)
  | noAttempts
  | noLetterTypes
  | indivisible (length slices : Nat)
  | notQuartered (cap : Cap)
  | tooLong (found limit : Nat)
  | tooIntense (found limit : Binary64)
  | tooManyAttempts (found limit : Nat)
deriving DecidableEq

def Fault.message : Fault → String
  | .noBeats => "length must be at least 1"
  | .level found => s!"level must be 1-3, got {found}"
  | .turnIntensity found => "invalid turn intensity: " ++ found.plainText
  | .noAttempts => "max attempts must be at least 1"
  | .noLetterTypes => "freeform mode needs at least one letter type"
  | .indivisible length slices => s!"length {length} is not divisible into {slices} slices"
  | .notQuartered cap => cap.name ++ " cannot be quartered"
  | .tooLong found limit => s!"length too long: {found} > {limit}"
  | .tooIntense found limit =>
    "turn intensity too high: " ++ found.plainText ++ " > " ++ limit.plainText
  | .tooManyAttempts found limit => s!"too many attempts: {found} > {limit}"

/-- What the mode asks for: some letter type, or slices that make up the length and, where they are
quarters, a turn of the grid between them. -/
def checkMode (c : Config) : Except Fault Unit :=
  match c.mode with
  | .freeform => if c.letterTypes.isEmpty then .error .noLetterTypes else .ok ()
  | .circular =>
    if c.length % c.slice.repeats ≠ 0 then .error (.indivisible c.length c.slice.repeats)
    else if c.slice = .quartered && !c.cap.has .rotated then .error (.notQuartered c.cap)
    else .ok ()

/-- Whether something can be generated at all. -/
def check (c : Config) : Except Fault Unit :=
  if c.length = 0 then .error .noBeats
  else if !(1 ≤ c.level && c.level ≤ 3) then .error (.level c.level)
  else if !c.turnIntensity.isFinite || c.turnIntensity.lt (.zero false) then
    .error (.turnIntensity c.turnIntensity)
  else if c.maxAttempts = 0 then .error .noAttempts
  else c.checkMode

/-- Whether something can be generated, and within limits. -/
def checkWithin (limits : Limits) (c : Config) : Except Fault Unit := do
  c.check
  if limits.length < c.length then .error (.tooLong c.length limits.length)
  else if limits.turnIntensity.lt c.turnIntensity then
    .error (.tooIntense c.turnIntensity limits.turnIntensity)
  else if limits.attempts < c.maxAttempts then
    .error (.tooManyAttempts c.maxAttempts limits.attempts)
  else .ok ()

def toJson (c : Config) : Json :=
  .obj
    [ ("mode", .str c.mode.name),
      ("length", .nat c.length),
      ("level", .nat c.level),
      ("turn_intensity", .float c.turnIntensity),
      ("grid_mode", .str c.grid.name),
      ("prop_continuity", .str c.continuity.name),
      ("letter_types", Json.list (fun t => .str t.name) c.letterTypes),
      ("slice_size", .str c.slice.name),
      ("cap_type", .str c.cap.name),
      ("excluded_letters", Json.list .str c.excludedLetters),
      ("seed", Json.orNull (fun s => .nat s.toNat) c.seed),
      ("max_attempts", .nat c.maxAttempts) ]

end Config

end KineticAlphabet
