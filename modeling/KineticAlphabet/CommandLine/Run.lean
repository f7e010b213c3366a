import KineticAlphabet.CommandLine.Arguments
import KineticAlphabet.Config.File
import KineticAlphabet.Generation.Basic
import KineticAlphabet.Random.ChaCha
import KineticAlphabet.Sequence.Record
/-!
What the commands do. A generation starts from a configuration file, which has to keep to the limits
by itself, or from the standard configuration; the options then override it. A failure is reported
with its causes.
-/
namespace KineticAlphabet.CommandLine

/-- What a run of the program shows: its exit code, and what it writes. -/
structure Outcome where
  code : Nat
  output : String
  report : List String
deriving DecidableEq, Repr

/-- The lines of a text behind some lead. All but the first are indented as far as the lead. -/
def hang (lead text : String) : List String :=
  match text.splitOn "\n" with
  | [] => []
  | line :: lines => (lead ++ line) :: lines.map (String.ofList (.replicate lead.length ' ') ++ ·)

namespace Outcome

def success (output : String) : Outcome := ⟨0, output, []⟩

def usage : Outcome := ⟨2, "", []⟩

/-- A failure with its causes, which are numbered where there are several. -/
def failure (context : String) (causes : List String) : Outcome :=
  let lines := match causes with
    | [cause] => hang "    " cause
    | causes => (causes.mapIdx fun i cause => hang s!"    {i}: " cause).flatten
  ⟨1, "", ("Error: " ++ context).splitOn "\n" ++
    if causes.isEmpty then [] else "" :: "Caused by:" :: lines⟩

def brief (o : Outcome) : Outcome := { o with report := o.report.take 1 }

end Outcome

/-- A configuration that could not be loaded. Where its file cannot be read, the system knows why,
and the report is brief. -/
def loadFailure (path : String) (e : Config.LoadError) : Outcome :=
  let outcome := Outcome.failure ("Failed to load config " ++ path) [e.message]
  match e with
  | .unreadable => outcome.brief
  | _ => outcome

def generationCauses (e : GenerationError) : List String :=
  match e with
  | .invalidConfig fault => [e.message, (Config.LoadError.invalid fault).message]
  | .invalidSequence violation => [e.message, violation.message]
  | e => [e.message]

def typesOfNumbers (numbers : List Nat) : Except Nat (List LetterType) :=
  numbers.mapM fun n => (LetterType.ofNumber? n).elim (.error n) .ok

namespace GenerateOptions

def override (w : GenerateOptions) (c : Config) : Config :=
  { mode := w.mode.getD c.mode
    length := w.length.getD c.length
    level := w.level.getD c.level
    turnIntensity := w.turnIntensity.getD c.turnIntensity
    grid := w.grid.getD c.grid
    continuity := w.continuity.getD c.continuity
    letterTypes := c.letterTypes
    slice := w.slice.getD c.slice
    cap := w.cap.getD c.cap
    excludedLetters := w.excluded.getD c.excludedLetters
    seed := w.seed.or c.seed
    maxAttempts := c.maxAttempts }

def overrideTypes (w : GenerateOptions) (c : Config) : Except Nat Config :=
  match w.letterTypes with
  | none => .ok c
  | some numbers => (typesOfNumbers numbers).map fun types => { c with letterTypes := types }

def merge (w : GenerateOptions) (c : Config) : Except Nat Config := w.overrideTypes (w.override c)

end GenerateOptions

/-- A sequence of a configuration that keeps to the standard limits, from its seed or, where it has
none, from a seed given. -/
def generateWithin (seed : UInt64) (c : Config) : Except GenerationError Sequence :=
  match c.checkWithin .standard with
  | .error fault => .error (.invalidConfig fault)
  | .ok () => ((Generation.run Random.ChaCha.source c).run (.ofSeed (c.seed.getD seed))).1

/-- The configuration that a generation starts from: that of the file that is asked for, if it keeps
to the limits by itself, or the standard one. -/
def loadConfig (files : String → Option String) (w : GenerateOptions) : Except Outcome Config :=
  match w.config with
  | none => .ok .standard
  | some path =>
    match Config.ofFile .standard path (files path) with
    | .ok c => .ok c
    | .error e => .error (loadFailure path e)

def generateMerged (seed : UInt64) (compact : Bool) : Except Nat Config → Outcome
  | .error n => .failure s!"No letter type {n}" []
  | .ok c =>
    match generateWithin seed c with
    | .error e => .failure "Sequence generation failed" (generationCauses e)
    | .ok s => .success ((if compact then s.toJson.compact else s.toJson.pretty) ++ "\n")

/-- A generation, given what files there are and a seed to use where none is asked for. -/
def runGenerate (files : String → Option String) (seed : UInt64) (w : GenerateOptions) : Outcome :=
  match loadConfig files w with
  | .error o => o
  | .ok c => generateMerged seed w.compact.isSome (w.merge c)

def classification (letter : String) : Json :=
  let t := LetterType.ofText letter
  .obj
    [ ("letter", .str letter),
      ("letter_type", .str t.name),
      ("description", .str t.description),
      ("known", .bool (Letter.ofText? letter).isSome) ]

def Command.run (files : String → Option String) (seed : UInt64) : Command → Outcome
  | .generate w => runGenerate files seed w
  | .classify letters => .success ((Json.list classification letters).pretty ++ "\n")
  | .orient motionType turns start spin =>
    .success (((Orientation.read start).after (.read motionType) turns spin).name ++ "\n")

def run (files : String → Option String) (seed : UInt64) (args : List String) : Outcome :=
  match Command.ofArguments? args with
  | some command => command.run files seed
  | none => .usage

end KineticAlphabet.CommandLine
