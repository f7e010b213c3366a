import KineticAlphabet.Json.Doc
import KineticAlphabet.Record
/-!
Reading JSON documents: the plain values, optional values, lists, names of enumerations, and
records.
-/
namespace KineticAlphabet.Json.Doc

variable {α σ : Type}

def string : Doc → Except ReadError String
  | .str s => .ok s
  | _ => .error .malformed

def boolean : Doc → Except ReadError Bool
  | .bool b => .ok b
  | _ => .error .malformed

def natural : Doc → Except ReadError Nat
  | .int n => if 0 ≤ n then .ok n.toNat else .error .malformed
  | _ => .error .malformed

def real : Doc → Except ReadError Binary64
  | .int n => .ok (.ofRat n)
  | .float x => .ok x
  | _ => .error .malformed

def optional (read : Doc → Except ReadError α) : Doc → Except ReadError (Option α)
  | .null => .ok none
  | d => (read d).map some

def list (read : Doc → Except ReadError α) : Doc → Except ReadError (List α)
  | .arr items => items.mapM read
  | _ => .error .malformed

/-- A value of an enumeration: its name, alone or as the only field of an object with `null`. -/
def named (ofName? : String → Option α) : Doc → Except ReadError α
  | .str s => (ofName? s).elim (.error .malformed) .ok
  | .obj [(some s, .null)] => (ofName? s).elim (.error .malformed) .ok
  | _ => .error .malformed

/-- What a document may be passed over for: being well formed. -/
def pass (d : Doc) : Except ReadError Unit :=
  if d.isIntact then .ok () else .error .malformed

def record (slots : List (Slot Doc σ)) (start : σ) : Doc → Except ReadError σ
  | .obj fields => readRecord slots pass start (.fields fields)
  | .arr items => readRecord slots pass start (.items items)
  | _ => .error .malformed

def reader : Reader Doc :=
  { named, string, real, list, optional
    natural := fun bound d => do
      let n ← d.natural
      if n < bound then .ok n else .error .malformed }

/-- The value of a whole text. What stands behind a good value is a fault of the text. -/
def readText (read : Doc → Except ReadError α) (text : String) : Except ReadError α :=
  let (d, junk) := ofText text
  do
    let a ← read d
    if junk then .error .malformed else .ok a

end KineticAlphabet.Json.Doc
