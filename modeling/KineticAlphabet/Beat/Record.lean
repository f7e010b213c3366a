import KineticAlphabet.Beat
import KineticAlphabet.Motion.Record
/-!
Beats as records. Only the number has to be there.
-/
namespace KineticAlphabet.Beat

open Json (Doc)

def slots : List (Slot Doc Beat) :=
  [ ⟨["beatNumber"], .always, fun d b => do return { b with number := ← d.natural }⟩,
    ⟨["duration"], .optional, fun d b => do return { b with duration := ← d.real }⟩,
    ⟨["letter"], .optional, fun d b => do return { b with letter := ← d.optional Doc.string }⟩,
    ⟨["motions"], .optional, fun d b => do return { b with motions := ← Duo.motionsOfDoc d }⟩,
    ⟨["reversals"], .optional, fun d b => do return { b with reversals := ← Duo.flagsOfDoc d }⟩,
    ⟨["startPosition"], .optional, fun d b => do
      return { b with startPosition := ← d.optional Doc.string }⟩,
    ⟨["endPosition"], .optional, fun d b => do
      return { b with endPosition := ← d.optional Doc.string }⟩,
    ⟨["isBlank"], .optional, fun d b => do return { b with isBlank := ← d.boolean }⟩ ]

def ofDoc (d : Doc) : Except ReadError Beat := d.record slots (empty 0)

/-- The record of a beat. Absent labels are left out. -/
def toJson (b : Beat) : Json :=
  .obj <|
    [("beatNumber", .nat b.number), ("duration", .float b.duration)] ++
    Json.field? "letter" .str b.letter ++
    [("motions", Duo.motionsToJson b.motions), ("reversals", Duo.flagsToJson b.reversals)] ++
    Json.field? "startPosition" .str b.startPosition ++
    Json.field? "endPosition" .str b.endPosition ++
    [("isBlank", .bool b.isBlank)]

end KineticAlphabet.Beat
