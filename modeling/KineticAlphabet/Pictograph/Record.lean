import KineticAlphabet.Motion.Record
import KineticAlphabet.Pictograph
/-!
Pictographs as records. Every field may be missing.
-/
namespace KineticAlphabet.Pictograph

open Json (Doc)

def slots : List (Slot Doc Pictograph) :=
  [ ⟨["id"], .optional, fun d p => do return { p with id := ← d.string }⟩,
    ⟨["motions"], .optional, fun d p => do return { p with motions := ← Duo.motionsOfDoc d }⟩,
    ⟨["letter"], .optional, fun d p => do return { p with letter := ← d.optional Doc.string }⟩,
    ⟨["startPosition"], .optional, fun d p => do
      return { p with startPosition := ← d.optional Doc.string }⟩,
    ⟨["endPosition"], .optional, fun d p => do
      return { p with endPosition := ← d.optional Doc.string }⟩,
    ⟨["gridMode"], .optional, fun d p => do return { p with grid := ← d.named Grid.ofName? }⟩,
    ⟨["isBlank"], .optional, fun d p => do return { p with isBlank := ← d.boolean }⟩ ]

def ofDoc (d : Doc) : Except ReadError Pictograph := d.record slots empty

/-- The record of a pictograph. Absent labels are left out. -/
def toJson (p : Pictograph) : Json :=
  .obj <|
    [("id", .str p.id), ("motions", Duo.motionsToJson p.motions)] ++
    Json.field? "letter" .str p.letter ++
    Json.field? "startPosition" .str p.startPosition ++
    Json.field? "endPosition" .str p.endPosition ++
    [("gridMode", .str p.grid.name), ("isBlank", .bool p.isBlank)]

end KineticAlphabet.Pictograph
