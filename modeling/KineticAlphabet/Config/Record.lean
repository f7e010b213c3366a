import KineticAlphabet.Config.Basic
import KineticAlphabet.Yaml.Document
/-!
Configurations as records, in JSON and in YAML. Every field may be missing and has a name in each of
two styles; what is missing is as in the standard configuration.
-/
namespace KineticAlphabet.Config

variable {δ : Type}

/-- The fields of a configuration, in any document format. -/
def slots (r : Reader δ) : List (Slot δ Config) :=
  [ ⟨["mode"], .optional, fun d c => do return { c with mode := ← r.named Mode.ofName? d }⟩,
    ⟨["length", "sequenceLength"], .optional, fun d c => do
      return { c with length := ← r.natural UInt64.size d }⟩,
    ⟨["level"], .optional, fun d c => do return { c with level := ← r.natural 256 d }⟩,
    ⟨["turn_intensity", "turnIntensity"], .optional, fun d c => do
      return { c with turnIntensity := ← r.real d }⟩,
    ⟨["grid_mode", "gridMode"], .optional, fun d c => do
      return { c with grid := ← r.named Grid.ofName? d }⟩,
    ⟨["prop_continuity", "propContinuity"], .optional, fun d c => do
      return { c with continuity := ← r.named Continuity.ofName? d }⟩,
    ⟨["letter_types", "letterTypes"], .optional, fun d c => do
      return { c with letterTypes := ← r.list (r.named LetterType.ofName?) d }⟩,
    ⟨["slice_size", "sliceSize"], .optional, fun d c => do
      return { c with slice := ← r.named Slice.ofName? d }⟩,
    ⟨["cap_type", "capType"], .optional, fun d c => do
      return { c with cap := ← r.named Cap.ofName? d }⟩,
    ⟨["excluded_letters", "excludedLetters"], .optional, fun d c => do
      return { c with excludedLetters := ← r.list r.string d }⟩,
    ⟨["seed"], .optional, fun d c => do
      let seed ← r.optional (r.natural UInt64.size) d
      return { c with seed := seed.map .ofNat }⟩,
    ⟨["max_attempts", "maxAttempts"], .optional, fun d c => do
      return { c with maxAttempts := ← r.natural UInt64.size d }⟩ ]

def ofDoc (d : Json.Doc) : Except ReadError Config := d.record (slots Json.Doc.reader) standard

def ofNode (n : Yaml.Node) : Except ReadError Config := n.record (slots Yaml.Node.reader) standard

end KineticAlphabet.Config
