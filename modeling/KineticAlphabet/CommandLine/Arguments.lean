import KineticAlphabet.Config.Basic
/-!
The arguments of the command line. Options are long or short, with their value attached or as the
next argument; what stands behind `--` is no option. An argument that begins with a hyphen is never
taken as a value of its own, the hyphen alone apart.
-/
namespace KineticAlphabet.CommandLine

/-- An option: its long name, its short one if it has any, and whether it has a value. -/
structure OptionForm where
  long : String
  short : Option Char
  hasValue : Bool

/-- An argument told apart. A switch has the empty text for a value. -/
inductive Argument
  | option (long value : String)
  | plain (text : String)

def looksLikeOption : List Char → Bool
  | '-' :: _ :: _ => true
  | _ => false

/-- The option that an argument writes, and the value attached to it. -/
def splitOption (forms : List OptionForm) : List Char → Option (OptionForm × Option String)
  | '-' :: '-' :: cs =>
    let name := String.ofList (cs.takeWhile (· ≠ '='))
    let value := match cs.dropWhile (· ≠ '=') with
      | _ :: v => some (String.ofList v)
      | [] => none
    (forms.find? (·.long == name)).map (·, value)
  | '-' :: c :: cs =>
    let value := match cs with
      | [] => none
      | '=' :: v => some (String.ofList v)
      | v => some (String.ofList v)
    (forms.find? (·.short == some c)).map (·, value)
  | _ => none

def tellApart (forms : List OptionForm) : List String → Option (List Argument)
  | [] => some []
  | a :: rest =>
    if a = "--" then some (rest.map .plain)
    else if !looksLikeOption a.toList then (tellApart forms rest).map (.plain a :: ·)
    else match splitOption forms a.toList, rest with
      | none, _ => none
      | some (form, some v), rest =>
        if form.hasValue then (tellApart forms rest).map (.option form.long v :: ·) else none
      | some (form, none), rest =>
        if !form.hasValue then (tellApart forms rest).map (.option form.long "" :: ·)
        else match rest with
          | v :: rest =>
            if looksLikeOption v.toList then none
            else (tellApart forms rest).map (.option form.long v :: ·)
          | [] => none

/-- What the options of a generation ask for. What is absent is left to the configuration. -/
structure GenerateOptions where
  config : Option String := none
  mode : Option Mode := none
  length : Option Nat := none
  level : Option Nat := none
  turnIntensity : Option Binary64 := none
  grid : Option Grid := none
  continuity : Option Continuity := none
  letterTypes : Option (List Nat) := none
  cap : Option Cap := none
  slice : Option Slice := none
  excluded : Option (List String) := none
  seed : Option UInt64 := none
  compact : Option Unit := none
deriving DecidableEq

/-- What to do. -/
inductive Command
  | generate (options : GenerateOptions)
  | classify (letters : List String)
  | orient (motionType : String) (turns : Turns) (start : String) (spin : Rotation)
deriving DecidableEq

def number? (bound : Nat) (text : String) : Option Nat :=
  (Decimal.natural? text.toList).filter (· < bound)

/-- A natural number below 256, which may be a zero with a minus sign. -/
def byte? (text : String) : Option Nat :=
  match text.toList with
  | '-' :: d :: ds => if (d :: ds).all (· = '0') then some 0 else none
  | _ => number? 256 text

def commaList (text : String) : List String :=
  let add (c : Char) (parts : List Char × List String) : List Char × List String :=
    if c = ',' then ([], String.ofList parts.1 :: parts.2) else (c :: parts.1, parts.2)
  let (first, others) := text.toList.foldr add ([], [])
  String.ofList first :: others

def once {α : Type} (before value : Option α) : Option (Option α) :=
  match before, value with
  | none, some a => some (some a)
  | _, _ => none

namespace GenerateOptions

def forms : List OptionForm :=
  [ ⟨"config", some 'c', true⟩, ⟨"mode", some 'm', true⟩, ⟨"length", some 'l', true⟩,
    ⟨"level", none, true⟩, ⟨"turn-intensity", none, true⟩, ⟨"grid", none, true⟩,
    ⟨"continuity", none, true⟩, ⟨"letter-types", none, true⟩, ⟨"cap", none, true⟩,
    ⟨"slice", none, true⟩, ⟨"exclude", none, true⟩, ⟨"seed", some 's', true⟩,
    ⟨"compact", none, false⟩ ]

/-- One more option. The two lists may be given in several parts, any other option only once. -/
def add (w : GenerateOptions) : Argument → Option GenerateOptions
  | .plain _ => none
  | .option long v =>
    match long with
    | "config" => do return { w with config := ← once w.config (if v = "" then none else some v) }
    | "mode" => do return { w with mode := ← once w.mode (Mode.ofName? v) }
    | "length" => do return { w with length := ← once w.length (number? UInt64.size v) }
    | "level" => do return { w with level := ← once w.level (byte? v) }
    | "turn-intensity" => do
      return { w with turnIntensity := ← once w.turnIntensity (Binary64.read? v.toList) }
    | "grid" => do return { w with grid := ← once w.grid (Grid.ofName? v) }
    | "continuity" => do return { w with continuity := ← once w.continuity (Continuity.ofName? v) }
    | "letter-types" => do
      return { w with letterTypes := some (w.letterTypes.getD [] ++ (← (commaList v).mapM byte?)) }
    | "cap" => do return { w with cap := ← once w.cap (Cap.read v).toOption }
    | "slice" => do return { w with slice := ← once w.slice (Slice.ofName? v) }
    | "exclude" => some { w with excluded := some (w.excluded.getD [] ++ commaList v) }
    | "seed" => do
      return { w with seed := ← once w.seed ((number? UInt64.size v).map .ofNat) }
    | "compact" => do return { w with compact := ← once w.compact (some ()) }
    | _ => none

def ofArguments? (args : List String) : Option GenerateOptions := do
  (← tellApart forms args).foldlM add {}

end GenerateOptions

namespace Command

def plain? : Argument → Option String
  | .plain text => some text
  | .option _ _ => none

def classify? (args : List String) : Option Command := do
  let letters ← (← tellApart [] args).mapM plain?
  if letters.isEmpty then none else return .classify letters

def orient? (args : List String) : Option Command := do
  let args ← tellApart [⟨"rotation", some 'r', true⟩] args
  let spins := args.filterMap fun
    | .option _ v => some v
    | .plain _ => none
  let spin ← match spins with
    | [] => some Rotation.none
    | [v] => (Rotation.read v).toOption
    | _ => none
  match args.filterMap plain? with
  | [motionType, turns, start] =>
    return .orient motionType (← (Turns.read turns).toOption) start spin
  | _ => none

def ofArguments? : List String → Option Command
  | "generate" :: args => (GenerateOptions.ofArguments? args).map .generate
  | "classify" :: args => classify? args
  | "orient" :: args => orient? args
  | _ => none

end Command

end KineticAlphabet.CommandLine
