import KineticAlphabet.Beat.Record
import KineticAlphabet.Sequence.Basic
/-!
Sequences as records. Every field may be missing. Metadata may hold any values that nest at most 125
deep, so that the whole record nests at most 127 deep.
-/
namespace KineticAlphabet

open Json (Doc)

namespace Metadata

/-- How deep a value may nest. -/
def nesting : Nat := 125

def insertDocs : List (Option String × Doc) → Metadata → Except ReadError Metadata
  | [], m => .ok m
  | (none, _) :: _, _ => .error .malformed
  | (some name, d) :: fs, m =>
    match d.toJson? nesting with
    | some v => insertDocs fs (m.insert name v)
    | none => .error .malformed

def ofDoc : Doc → Except ReadError Metadata
  | .obj fields => insertDocs fields .empty
  | _ => .error .malformed

def toJson (m : Metadata) : Json := .obj m.entries

end Metadata

namespace Sequence

def slots : List (Slot Doc Sequence) :=
  [ ⟨["name"], .optional, fun d s => do return { s with name := ← d.string }⟩,
    ⟨["startPosition"], .optional, fun d s => do
      return { s with startPosition := ← d.optional Beat.ofDoc }⟩,
    ⟨["beats"], .optional, fun d s => do return { s with beats := ← d.list Beat.ofDoc }⟩,
    ⟨["metadata"], .optional, fun d s => do return { s with metadata := ← Metadata.ofDoc d }⟩ ]

/-- The sequence of a record. The beats keep their numbers. -/
def ofDoc (d : Doc) : Except ReadError Sequence := d.record slots (empty "")

/-- The record of a sequence. An absent start position is left out. -/
def toJson (s : Sequence) : Json :=
  .obj <|
    [("name", .str s.name)] ++
    Json.field? "startPosition" Beat.toJson s.startPosition ++
    [("beats", Json.list Beat.toJson s.beats), ("metadata", s.metadata.toJson)]

end Sequence

end KineticAlphabet
