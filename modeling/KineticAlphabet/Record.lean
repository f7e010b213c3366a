import KineticAlphabet.Number.Binary64
/-!
Records: how the fields of a document fill a value. A record is read in the order of the document
and the first fault ends it. `readRecord` takes the fields by name or by position, refuses a field
that comes twice, passes over fields it does not know and checks at the end that none is missing.
-/
namespace KineticAlphabet

/-- Why a text or a record is refused. -/
inductive ReadError
  | malformed
  | invalidTurns (text : String)
  | unknownLocation (text : String)
  | unknownRotation (text : String)
  | unknownCap (text : String)
  | missingField (name : String)
deriving DecidableEq

def ReadError.message : ReadError → String
  | .malformed => "Malformed record"
  | .invalidTurns text =>
    "Invalid turns value: " ++ text ++ " (expected a non-negative multiple of 0.5 or \"fl\")"
  | .unknownLocation text => "Unknown location: " ++ text
  | .unknownRotation text => "Unknown rotation direction: " ++ text
  | .unknownCap text => "unknown CAP type: " ++ text
  | .missingField name => "Missing required field: " ++ name

/-- Where a field has to be present. -/
inductive Presence
  | optional
  | whenListed
  | always
deriving DecidableEq

/-- A field of a record: its names, whether it has to be there, and what its value does to the
record under construction. -/
structure Slot (δ σ : Type) where
  names : List String
  presence : Presence
  read : δ → σ → Except ReadError σ

/-- How a document presents a record: by the names of its fields, or as a list of their values. -/
inductive Shape (δ : Type)
  | fields (entries : List (Option String × δ))
  | items (values : List δ)

variable {δ σ : Type}

/-- Fields that are read by name. The names of the slots already filled come along. -/
def readFields (slots : List (Slot δ σ)) (pass : δ → Except ReadError Unit) :
    List (Option String × δ) → List (List String) → σ → Except ReadError (List (List String) × σ)
  | [], filled, s => .ok (filled, s)
  | (none, _) :: _, _, _ => .error .malformed
  | (some name, d) :: rest, filled, s =>
    match slots.find? (fun slot => slot.names.contains name) with
    | none => do
      pass d
      readFields slots pass rest filled s
    | some slot =>
      if filled.contains slot.names then .error .malformed
      else do
        let s ← slot.read d s
        readFields slots pass rest (slot.names :: filled) s

/-- Fields that are read by position. Only optional ones may be missing at the end. -/
def readItems : List (Slot δ σ) → List δ → σ → Except ReadError σ
  | slots, [], s =>
    if slots.all fun slot => slot.presence = .optional then .ok s else .error .malformed
  | [], _ :: _, _ => .error .malformed
  | slot :: slots, d :: ds, s => do
    let s ← slot.read d s
    readItems slots ds s

def readRecord (slots : List (Slot δ σ)) (pass : δ → Except ReadError Unit) (start : σ) :
    Shape δ → Except ReadError σ
  | .items ds => readItems slots ds start
  | .fields entries => do
    let (filled, s) ← readFields slots pass entries [] start
    if slots.all fun slot => slot.presence ≠ .always || filled.contains slot.names then .ok s
    else .error .malformed

/-- How the plain values of a document format are read. A natural number has a bound that it stays
below. -/
structure Reader (δ : Type) where
  named : {α : Type} → (String → Option α) → δ → Except ReadError α
  string : δ → Except ReadError String
  natural : Nat → δ → Except ReadError Nat
  real : δ → Except ReadError Binary64
  list : {α : Type} → (δ → Except ReadError α) → δ → Except ReadError (List α)
  optional : {α : Type} → (δ → Except ReadError α) → δ → Except ReadError (Option α)

end KineticAlphabet
