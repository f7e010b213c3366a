import KineticAlphabet.Motion
/-!
Motions as records. A record may claim any end orientation: it is read over and derived anew. The
motion type is a raw text, which may name a blend; a blend given in a field of its own counts more.
-/
namespace KineticAlphabet

open Json (Doc)

namespace Point

def slots : List (Slot Doc Point) :=
  [ ⟨["x"], .always, fun d p => do return { p with x := ← d.real }⟩,
    ⟨["y"], .always, fun d p => do return { p with y := ← d.real }⟩ ]

def ofDoc (d : Doc) : Except ReadError Point := d.record slots ⟨default, default⟩

def toJson (p : Point) : Json := .obj [("x", .float p.x), ("y", .float p.y)]

end Point

namespace Motion

/-- What a record says about a motion. -/
structure Draft where
  motionType : Option String := none
  blend : Option Blend := none
  startLocation : Option Location := none
  endLocation : Option Location := none
  turns : Option Turns := none
  spin : Option Rotation := none
  startOrientation : Option String := none
  path : Option (List Point) := none

namespace Draft

/-- The fields of a motion. The end orientation is read over. -/
def slots : List (Slot Doc Draft) :=
  [ ⟨["motionType"], .whenListed, fun d m => do
      return { m with motionType := ← d.optional Doc.string }⟩,
    ⟨["blend"], .optional, fun d m => do
      return { m with blend := ← d.optional (Doc.named Blend.ofName?) }⟩,
    ⟨["startLocation", "startLoc"], .whenListed, fun d m => do
      return { m with startLocation := ← d.optional (Doc.named Location.ofName?) }⟩,
    ⟨["endLocation", "endLoc"], .whenListed, fun d m => do
      return { m with endLocation := ← d.optional (Doc.named Location.ofName?) }⟩,
    ⟨["turns"], .whenListed, fun d m => do
      return { m with turns := ← d.optional Turns.ofDoc }⟩,
    ⟨["propRotationDirection", "propRotDir"], .optional, fun d m => do
      return { m with spin := ← d.optional (Doc.named Rotation.ofName?) }⟩,
    ⟨["startOrientation", "startOri"], .optional, fun d m => do
      return { m with startOrientation := ← d.optional Doc.string }⟩,
    ⟨["endOrientation", "endOri"], .optional, fun d m => do
      let _ ← d.optional Doc.string
      return m⟩,
    ⟨["path"], .optional, fun d m => do
      return { m with path := ← d.optional (Doc.list Point.ofDoc) }⟩ ]

def require {α : Type} (name : String) (part : Option α) : Except ReadError α :=
  part.elim (.error (.missingField name)) .ok

/-- The motion type and the blend that a raw text names. With a blend the type is the first one
among its words, otherwise the text has to be a type as a whole. -/
def typeAndBlend (raw : String) : MotionType × Blend :=
  match Blend.ofRaw raw with
  | .single => (.read raw, .single)
  | blend => (Blend.baseType raw, blend)

def toMotion (m : Draft) : Except ReadError Motion := do
  let raw ← require "motionType" m.motionType
  let start ← require "startLocation" m.startLocation
  let stop ← require "endLocation" m.endLocation
  let turns ← require "turns" m.turns
  let (t, blend) := typeAndBlend raw
  let o := (m.startOrientation.map Orientation.read).getD .inward
  let plain := Motion.make t start stop turns (m.spin.getD .none) o
  let motion := plain.withBlend (m.blend.getD blend)
  return match m.path with
    | some path => motion.withPath path
    | none => motion

end Draft

def ofDoc (d : Doc) : Except ReadError Motion := do
  let draft ← d.record Draft.slots {}
  draft.toMotion

/-- The record of a motion. A single blend and an absent path are left out. -/
def toJson (m : Motion) : Json :=
  .obj <|
    [("motionType", .str m.motionType.name)] ++
    (if m.blend = .single then [] else [("blend", .str m.blend.name)]) ++
    [ ("startLocation", .str m.startLocation.name),
      ("endLocation", .str m.endLocation.name),
      ("turns", m.turns.toJson),
      ("propRotationDirection", .str m.spin.name),
      ("startOrientation", .str m.startOrientation.name),
      ("endOrientation", .str m.endOrientation.name) ] ++
    Json.field? "path" (Json.list Point.toJson) m.path

end Motion

namespace Duo

def motionSlots : List (Slot Doc Motions) :=
  [ ⟨["blue"], .optional, fun d ms => do return { ms with blue := ← d.optional Motion.ofDoc }⟩,
    ⟨["red"], .optional, fun d ms => do return { ms with red := ← d.optional Motion.ofDoc }⟩ ]

def motionsOfDoc (d : Doc) : Except ReadError Motions := d.record motionSlots ⟨none, none⟩

def motionsToJson (ms : Motions) : Json :=
  .obj (Json.field? "blue" Motion.toJson ms.blue ++ Json.field? "red" Motion.toJson ms.red)

def flagSlots : List (Slot Doc (Duo Bool)) :=
  [ ⟨["blue"], .optional, fun d fs => do return { fs with blue := ← d.boolean }⟩,
    ⟨["red"], .optional, fun d fs => do return { fs with red := ← d.boolean }⟩ ]

def flagsOfDoc (d : Doc) : Except ReadError (Duo Bool) := d.record flagSlots ⟨false, false⟩

def flagsToJson (fs : Duo Bool) : Json := .obj [("blue", .bool fs.blue), ("red", .bool fs.red)]

def orientationOfDoc (d : Doc) : Except ReadError Orientation :=
  d.string.map Orientation.read

def stanceSlots : List (Slot Doc (Duo Stance)) :=
  [ ⟨["blue_location"], .always, fun d s => do
      return { s with blue := { s.blue with location := ← d.named Location.ofName? } }⟩,
    ⟨["red_location"], .always, fun d s => do
      return { s with red := { s.red with location := ← d.named Location.ofName? } }⟩,
    ⟨["blue_orientation"], .always, fun d s => do
      return { s with blue := { s.blue with orientation := ← orientationOfDoc d } }⟩,
    ⟨["red_orientation"], .always, fun d s => do
      return { s with red := { s.red with orientation := ← orientationOfDoc d } }⟩ ]

def stancesOfDoc (d : Doc) : Except ReadError (Duo Stance) :=
  d.record stanceSlots ⟨⟨.n, .inward⟩, ⟨.n, .inward⟩⟩

def stancesToJson (s : Duo Stance) : Json :=
  .obj
    [ ("blue_location", .str s.blue.location.name),
      ("red_location", .str s.red.location.name),
      ("blue_orientation", .str s.blue.orientation.name),
      ("red_orientation", .str s.red.orientation.name) ]

end Duo

end KineticAlphabet
