import KineticAlphabet.Number.Decimal
import KineticAlphabet.Record
/-!
YAML documents as trees of scalars, sequences and mappings. A scalar has no type of its own: what it
is read as decides, and only a plain scalar, one without quotes, can be a number or null.
-/
namespace KineticAlphabet.Yaml

inductive Node
  | scalar (plain : Bool) (text : String)
  | sequence (items : List Node)
  | mapping (entries : List (Node × Node))

namespace Node

variable {α σ : Type}

def empty : Node := .scalar true ""

def string : Node → Except ReadError String
  | .scalar _ text => .ok text
  | _ => .error .malformed

def named (ofName? : String → Option α) : Node → Except ReadError α
  | .scalar _ text => (ofName? text).elim (.error .malformed) .ok
  | _ => .error .malformed

def digit? (base : Nat) (c : Char) : Option Nat :=
  let n :=
    if c.isDigit then c.toNat - '0'.toNat
    else if 'a' ≤ c && c ≤ 'f' then c.toNat - 'a'.toNat + 10
    else if 'A' ≤ c && c ≤ 'F' then c.toNat - 'A'.toNat + 10
    else base
  if n < base then some n else none

def digits? (base : Nat) (cs : List Char) : Option Nat :=
  if cs.isEmpty then none else cs.foldlM (fun n c => (digit? base c).map (base * n + ·)) 0

/-- The natural number that a plain scalar writes: in base sixteen, eight or two behind `0x`, `0o`
or `0b`, otherwise in base ten without leading zeros. A plus sign may stand in front. -/
def naturalText? (cs : List Char) : Option Nat :=
  let body := match cs with
    | '+' :: cs => cs
    | cs => cs
  match body with
  | '0' :: 'x' :: cs => digits? 16 cs
  | '0' :: 'o' :: cs => digits? 8 cs
  | '0' :: 'b' :: cs => digits? 2 cs
  | '0' :: _ :: _ => none
  | body => digits? 10 body

def natural (bound : Nat) : Node → Except ReadError Nat
  | .scalar true text =>
    match naturalText? text.toList with
    | some n => if n < bound then .ok n else .error .malformed
    | none => .error .malformed
  | _ => .error .malformed

/-- The double that a plain scalar writes: an infinity, no number, or a finite decimal number. -/
def realText? (text : String) : Option Binary64 :=
  let body := match text.toList with
    | '+' :: cs => cs
    | cs => cs
  let isSigned := match text.toList with
    | '+' :: '+' :: _ => true
    | '+' :: '-' :: _ => true
    | _ => false
  if isSigned then none
  else if [".inf", ".Inf", ".INF"].contains (String.ofList body) then some (.infinity false)
  else if ["-.inf", "-.Inf", "-.INF"].contains text then some (.infinity true)
  else if [".nan", ".NaN", ".NAN"].contains text then some .nan
  else (Binary64.read? body).filter Binary64.isFinite

def real : Node → Except ReadError Binary64
  | .scalar true text => (realText? text).elim (.error .malformed) .ok
  | _ => .error .malformed

/-- A list of values. Nothing at all is the empty list. -/
def list (read : Node → Except ReadError α) : Node → Except ReadError (List α)
  | .sequence items => items.mapM read
  | .scalar true "" => .ok []
  | _ => .error .malformed

def optional (read : Node → Except ReadError α) (n : Node) : Except ReadError (Option α) :=
  match n with
  | .scalar true text =>
    if ["", "~", "null", "Null", "NULL"].contains text then .ok none else (read n).map some
  | _ => (read n).map some

def reader : Reader Node := { named, string, natural, real, list, optional }

def key? : Node → Option String
  | .scalar _ text => some text
  | _ => none

/-- A record. Nothing at all is a record without fields. -/
def record (slots : List (Slot Node σ)) (start : σ) : Node → Except ReadError σ
  | .mapping entries =>
    readRecord slots (fun _ => .ok ()) start (.fields (entries.map fun (k, v) => (k.key?, v)))
  | .scalar true "" => readRecord slots (fun _ => .ok ()) start (.fields [])
  | _ => .error .malformed

end Node

end KineticAlphabet.Yaml
