import KineticAlphabet.Pictograph.Record
import KineticAlphabet.Sequence.Record
import KineticAlphabet.Proofs.Counting
import KineticAlphabet.Proofs.Exactness
import KineticAlphabet.Proofs.Filling
import KineticAlphabet.Proofs.Invariance
/-!
Records that are read back. A record is written with its fields in the order of their slots, so
reading it fills one slot after another with what was written, and the end orientation of a motion
is derived anew. Turns, texts and flags come back whatever they are; of other numbers and of
metadata this is asked for.
-/
namespace KineticAlphabet

open Json (Doc)

namespace Json

variable {α β σ : Type}

theorem rereadFields_present (names : List String) (vs : List (Option Json)) :
    rereadFields (present names vs) =
      (present names (vs.map (Option.map reread))).map fun f => (some f.1, f.2) := by
  induction names generalizing vs with
  | nil => rfl
  | cons name names ih =>
    rcases vs with _ | ⟨_ | v, vs⟩
    · rfl
    · exact ih vs
    · exact congrArg _ (ih vs)

/-- A written record whose fields stand in the order of its slots is read slot by slot. -/
theorem record_present {slots : List (Slot Doc σ)} (hslots : Slot.WellNamed slots)
    {vs : List (Option Json)} (hserved : List.Forall₂ Slot.Served slots vs) (start : σ) :
    Doc.record slots start (obj (present (slots.map Slot.name) vs)).reread =
      fillAll slots (vs.map (Option.map reread)) start := by
  have hdocs : List.Forall₂ Slot.Served slots (vs.map (Option.map reread)) := by
    rw [List.forall₂_map_right_iff]
    refine hserved.imp fun slot v hv => ?_
    rw [Slot.Served, Option.isSome_map]
    exact hv
  rw [reread_obj, rereadFields_present]
  exact readRecord_present hslots _ hdocs start

/-- What can be read and is not `null` can be read where nothing may stand too. -/
theorem optional_of_ok {read : Doc → Except ReadError α} (hnull : read .null = .error .malformed)
    {d : Doc} {a : α} (h : read d = .ok a) : Doc.optional read d = .ok (some a) := by
  cases d with
  | null =>
    rw [hnull] at h
    cases h
  | _ => exact congrArg (Except.map some) h

theorem optional_string (s : String) : Doc.optional Doc.string (.str s) = .ok (some s) := rfl

theorem named_of_eq_some {ofName? : String → Option α} {s : String} {a : α}
    (h : ofName? s = some a) : Doc.named ofName? (.str s) = .ok a := by
  rw [Doc.named, h]
  rfl

theorem optional_named {ofName? : String → Option α} {s : String} {a : α}
    (h : ofName? s = some a) : Doc.optional (Doc.named ofName?) (.str s) = .ok (some a) :=
  optional_of_ok rfl (named_of_eq_some h)

theorem list_reread {read : Doc → Except ReadError β} {encode : α → Json} {f : α → β}
    {as : List α} (h : ∀ a ∈ as, read (encode a).reread = .ok (f a)) :
    Doc.list read (list encode as).reread = .ok (as.map f) := by
  rw [list, reread_arr, List.map_map]
  induction as with
  | nil => rfl
  | cons a as ih =>
    rw [List.forall_mem_cons] at h
    have ih := ih h.2
    simp only [Doc.list] at ih ⊢
    simp only [List.map_cons, List.mapM_cons, Function.comp_apply, h.1, ih]
    rfl

/-- Reading the written value gives the value back. -/
def Undone (v : Json) : Prop := (Doc.ofText v.compact).1.toJson? Metadata.nesting = some v

theorem Undone.reread_float {x : Binary64} (h : (float x).Undone) :
    (float x).reread = .float x := by
  change (float x).reread.toJson? Metadata.nesting = _ at h
  cases hd : (float x).reread <;> simp [hd, Doc.toJson?, Metadata.nesting] at h
  rw [h]

theorem Undone.reread_int {n : Int} (h : (int n).Undone) : (int n).reread = .int n := by
  change (int n).reread.toJson? Metadata.nesting = _ at h
  cases hd : (int n).reread <;> simp [hd, Doc.toJson?, Metadata.nesting] at h
  rw [h]

end Json

namespace Point

theorem wellNamed_slots : Slot.WellNamed slots := ⟨by decide, by decide⟩

theorem toJson_eq (p : Point) : p.toJson =
    .obj (present (slots.map Slot.name) [some (.float p.x), some (.float p.y)]) := rfl

/-- A point whose coordinates come back comes back. -/
theorem ofDoc_toJson {p : Point} (hx : (Json.float p.x).Undone) (hy : (Json.float p.y).Undone) :
    ofDoc p.toJson.reread = .ok p := by
  rw [ofDoc, toJson_eq, Json.record_present wellNamed_slots]
  · simp [fillAll, Slot.fill, slots, hx.reread_float, hy.reread_float, Doc.real]
    rfl
  · simp [slots, Slot.Served]

end Point

theorem Turns.ofDoc_toJson (t : Turns) : ofDoc t.toJson.reread = .ok t := by
  cases t with
  | half n =>
    rw [toJson_half, Json.reread_half n.toNat_lt]
    exact ofNumber_half n
  | float =>
    rw [toJson, Json.reread_str]
    decide +kernel

theorem Blend.ofName?_name (b : Blend) : ofName? b.name = some b := by cases b <;> decide

theorem Location.ofName?_name (l : Location) : ofName? l.name = some l := by cases l <;> decide

theorem Grid.ofName?_name (g : Grid) : ofName? g.name = some g := by cases g <;> decide

theorem Rotation.ofName?_name (r : Rotation) : ofName? r.name = some r := by cases r <;> decide

namespace Motion

namespace Draft

theorem wellNamed_slots : Slot.WellNamed slots := ⟨by decide, by decide⟩

end Draft

/-- What the record of a motion has in the fields of the slots. -/
def values (m : Motion) : List (Option Json) :=
  [ some (.str m.motionType.name),
    if m.blend = .single then none else some (.str m.blend.name),
    some (.str m.startLocation.name), some (.str m.endLocation.name), some m.turns.toJson,
    some (.str m.spin.name), some (.str m.startOrientation.name),
    some (.str m.endOrientation.name), m.path.map (Json.list Point.toJson) ]

theorem toJson_eq (m : Motion) :
    m.toJson = .obj (present (Draft.slots.map Slot.name) m.values) := by
  rcases m with ⟨_, _ | _ | _, _, _, _, _, _, _, _ | _⟩ <;> rfl

def draft (m : Motion) : Draft :=
  { motionType := some m.motionType.name
    blend := if m.blend = .single then none else some m.blend
    startLocation := some m.startLocation
    endLocation := some m.endLocation
    turns := some m.turns
    spin := some m.spin
    startOrientation := some m.startOrientation.name
    path := m.path }

/-- The coordinates of an explicit path come back. -/
def Legible (m : Motion) : Prop :=
  ∀ path, m.path = some path → ∀ p ∈ path, (Json.float p.x).Undone ∧ (Json.float p.y).Undone

variable {m : Motion}

theorem list_ofDoc_path (h : m.Legible) {ps : List Point} (hps : m.path = some ps) :
    Doc.list Point.ofDoc (Json.list Point.toJson ps).reread = .ok ps := by
  have hp : ∀ p ∈ ps, Point.ofDoc p.toJson.reread = .ok p :=
    fun p hp => Point.ofDoc_toJson (h ps hps p hp).1 (h ps hps p hp).2
  have hlist := Json.list_reread (f := id) hp
  rwa [List.map_id] at hlist

/-- A record fills a draft with what it says. -/
theorem fillAll_values (h : m.Legible) :
    fillAll Draft.slots (m.values.map (Option.map Json.reread)) {} = .ok m.draft := by
  have hpath {ps : List Point} (hps : m.path = some ps) :=
    Json.optional_of_ok rfl (list_ofDoc_path h hps)
  rcases m with ⟨t, b, l, l', n, r, o, o', path⟩
  have hblend := Json.optional_named b.ofName?_name
  have hstart := Json.optional_named l.ofName?_name
  have hstop := Json.optional_named l'.ofName?_name
  have hturns := Json.optional_of_ok rfl n.ofDoc_toJson
  have hspin := Json.optional_named r.ofName?_name
  simp only [Draft.slots, values, List.map_cons, List.map_nil, Option.map_some, fillAll,
    Slot.fill, Json.reread_str, Json.optional_string, hturns, hstart, hstop, hspin, bind,
    Except.bind, pure, Except.pure]
  -- only the blend and the path may be missing
  cases b <;> cases path with
  | none =>
    simp only [reduceCtorEq, if_true, if_false, Option.map_none, Option.map_some, Json.reread_str,
      hblend, draft]
  | some ps =>
    simp only [reduceCtorEq, if_true, if_false, Option.map_none, Option.map_some, Json.reread_str,
      hblend, hpath rfl, draft]

theorem toMotion_draft (m : Motion) : m.draft.toMotion = .ok m.rederive := by
  rcases m with ⟨t, b, l, l', n, r, o, o', path⟩
  have ht : Draft.typeAndBlend t.name = (t, .single) := by cases t <;> decide +kernel
  have ho : Orientation.read o.name = o := by cases o <;> decide +kernel
  simp only [Draft.toMotion, Draft.require, draft, Option.elim, ht, Option.map_some, ho,
    Option.getD_some, bind, Except.bind, pure, Except.pure]
  cases b <;> cases path <;> rfl

/-- A motion comes back with its end orientation derived anew. -/
theorem ofDoc_toJson (h : m.Legible) : ofDoc m.toJson.reread = .ok m.rederive := by
  rw [ofDoc, toJson_eq, Json.record_present Draft.wellNamed_slots, fillAll_values h]
  · exact bind_eq_ok_iff.mpr ⟨_, rfl, toMotion_draft m⟩
  · simp [Draft.slots, values, Slot.Served]

end Motion

namespace Duo

def rederived (ms : Motions) : Motions := ms.map (Option.map Motion.rederive)

theorem wellNamed_motionSlots : Slot.WellNamed motionSlots := ⟨by decide, by decide⟩

theorem motionsToJson_eq (ms : Motions) : motionsToJson ms =
    .obj (present (motionSlots.map Slot.name)
      [ms.blue.map Motion.toJson, ms.red.map Motion.toJson]) := by
  rcases ms with ⟨_ | _, _ | _⟩ <;> rfl

theorem motionsOfDoc_toJson {ms : Motions} (h : ms.Every Motion.Legible) :
    motionsOfDoc (motionsToJson ms).reread = .ok (rederived ms) := by
  have hread : ∀ a m, ms.get a = some m →
      Doc.optional Motion.ofDoc m.toJson.reread = .ok (some m.rederive) :=
    fun a m hm => Json.optional_of_ok rfl (Motion.ofDoc_toJson (h a m hm))
  rw [motionsOfDoc, motionsToJson_eq, Json.record_present wellNamed_motionSlots]
  · rcases ms with ⟨_ | b, _ | r⟩
    case none.none => rfl
    case none.some =>
      simp [motionSlots, fillAll, Slot.fill, hread .red r rfl]
      rfl
    case some.none =>
      simp [motionSlots, fillAll, Slot.fill, hread .blue b rfl]
      rfl
    case some.some =>
      simp [motionSlots, fillAll, Slot.fill, hread .blue b rfl, hread .red r rfl]
      rfl
  · simp [motionSlots, Slot.Served]

theorem wellNamed_flagSlots : Slot.WellNamed flagSlots := ⟨by decide, by decide⟩

theorem flagsToJson_eq (fs : Duo Bool) : flagsToJson fs =
    .obj (present (flagSlots.map Slot.name) [some (.bool fs.blue), some (.bool fs.red)]) := rfl

theorem flagsOfDoc_toJson (fs : Duo Bool) : flagsOfDoc (flagsToJson fs).reread = .ok fs := by
  rw [flagsOfDoc, flagsToJson_eq, Json.record_present wellNamed_flagSlots]
  · simp [flagSlots, fillAll, Slot.fill, Doc.boolean]
    rfl
  · simp [flagSlots, Slot.Served]

end Duo

namespace Pictograph

def Legible (p : Pictograph) : Prop := p.motions.Every Motion.Legible

def rederived (p : Pictograph) : Pictograph := { p with motions := p.motions.rederived }

theorem wellNamed_slots : Slot.WellNamed slots := ⟨by decide, by decide⟩

def values (p : Pictograph) : List (Option Json) :=
  [ some (.str p.id), some (Duo.motionsToJson p.motions), p.letter.map .str,
    p.startPosition.map .str, p.endPosition.map .str, some (.str p.grid.name),
    some (.bool p.isBlank) ]

theorem toJson_eq (p : Pictograph) : p.toJson = .obj (present (slots.map Slot.name) p.values) := by
  rcases p with ⟨_, _, _ | _, _ | _, _ | _, _, _⟩ <;> rfl

/-- A pictograph comes back with the end orientations of its motions derived anew. -/
theorem ofDoc_toJson {p : Pictograph} (h : p.Legible) :
    ofDoc p.toJson.reread = .ok p.rederived := by
  rw [ofDoc, toJson_eq, Json.record_present wellNamed_slots]
  · rcases p with ⟨id, ms, l, s, e, g, blank⟩
    have hms := Duo.motionsOfDoc_toJson h
    have hg := Json.named_of_eq_some g.ofName?_name
    simp only [slots, values, List.map_cons, List.map_nil, Option.map_some, fillAll, Slot.fill,
      Json.reread_str, Json.reread_bool, Doc.string, Doc.boolean, hms, hg, bind, Except.bind,
      pure, Except.pure]
    cases l <;> cases s <;> cases e <;>
      simp only [Option.map_none, Option.map_some, Json.reread_str, Json.optional_string,
        rederived, empty]
  · simp [slots, values, Slot.Served]

end Pictograph

namespace Beat

/-- The number and the duration of a beat come back, and its motions are legible. -/
structure Legible (b : Beat) : Prop where
  number : (Json.nat b.number).Undone
  duration : (Json.float b.duration).Undone
  motions : b.motions.Every Motion.Legible

def rederived (b : Beat) : Beat := b.mapMotions Duo.rederived

theorem wellNamed_slots : Slot.WellNamed slots := ⟨by decide, by decide⟩

def values (b : Beat) : List (Option Json) :=
  [ some (.nat b.number), some (.float b.duration), b.letter.map .str,
    some (Duo.motionsToJson b.motions), some (Duo.flagsToJson b.reversals),
    b.startPosition.map .str, b.endPosition.map .str, some (.bool b.isBlank) ]

theorem toJson_eq (b : Beat) : b.toJson = .obj (present (slots.map Slot.name) b.values) := by
  rcases b with ⟨_, _, _ | _, _, _, _ | _, _ | _, _⟩ <;> rfl

/-- A beat comes back with the end orientations of its motions derived anew. -/
theorem ofDoc_toJson {b : Beat} (h : b.Legible) : ofDoc b.toJson.reread = .ok b.rederived := by
  rw [ofDoc, toJson_eq, Json.record_present wellNamed_slots]
  · rcases b with ⟨n, d, l, ms, fs, s, e, blank⟩
    have hn : (Json.nat n).reread.natural = .ok n := by
      rw [Json.nat, Json.Undone.reread_int h.number]
      simp [Doc.natural]
    have hd : (Json.float d).reread.real = .ok d := by
      rw [h.duration.reread_float]
      rfl
    have hms := Duo.motionsOfDoc_toJson h.motions
    have hfs := fs.flagsOfDoc_toJson
    simp only [slots, values, List.map_cons, List.map_nil, Option.map_some, fillAll, Slot.fill, hn,
      hd, Json.reread_bool, Doc.boolean, hms, hfs, bind, Except.bind, pure, Except.pure]
    cases l <;> cases s <;> cases e <;>
      simp only [Option.map_none, Option.map_some, Json.reread_str, Json.optional_string,
        rederived, empty, mapMotions]
  · simp [slots, values, Slot.Served]

end Beat

/-- A field behind all others. -/
theorem Json.putField_of_lt {α : Type} {name : String} {a : α} {fs : List (String × α)}
    (h : ∀ f ∈ fs, f.1 < name) : putField name a fs = fs ++ [(name, a)] := by
  induction fs with
  | nil => rfl
  | cons f fs ih =>
    obtain ⟨hf, hfs⟩ := List.forall_mem_cons.mp h
    have hne : name ≠ f.1 := fun he => String.lt_irrefl _ (he ▸ hf)
    rw [putField, if_neg (String.lt_asymm hf), if_neg hne, ih hfs]
    rfl

namespace Metadata

def Undone (m : Metadata) : Prop := ∀ f ∈ m.entries, f.2.Undone

/-- Sorted fields whose values come back are put one behind the other. -/
theorem insertDocs_rereadFields {fs : List (String × Json)} (hundone : ∀ f ∈ fs, f.2.Undone)
    (m : Metadata) (hsorted : (m.entries ++ fs).Pairwise (·.1 < ·.1)) :
    insertDocs (Json.rereadFields fs) m = .ok ⟨m.entries ++ fs, hsorted⟩ := by
  induction fs generalizing m with
  | nil => exact congrArg Except.ok (Metadata.ext (List.append_nil _).symm)
  | cons f fs ih =>
    obtain ⟨name, v⟩ := f
    obtain ⟨hv, hfs⟩ := List.forall_mem_cons.mp hundone
    have hlast : (m.insert name v).entries = m.entries ++ [(name, v)] :=
      Json.putField_of_lt fun f hf =>
        (List.pairwise_append.mp hsorted).2.2 f hf (name, v) List.mem_cons_self
    have hentries : (m.insert name v).entries ++ fs = m.entries ++ (name, v) :: fs := by
      rw [hlast, List.append_assoc, List.singleton_append]
    have hread : v.reread.toJson? nesting = some v := hv
    simp only [Json.rereadFields, List.map_cons, insertDocs, hread]
    rw [← Json.rereadFields, ih hfs (m.insert name v) (hentries ▸ hsorted)]
    exact congrArg Except.ok (Metadata.ext hentries)

/-- Metadata whose values come back come back. -/
theorem ofDoc_toJson {m : Metadata} (h : m.Undone) : ofDoc m.toJson.reread = .ok m := by
  rw [toJson, Json.reread_obj]
  exact insertDocs_rereadFields h empty m.sorted

end Metadata

namespace Sequence

/-- The metadata of a sequence come back, and its start position and its beats are legible. -/
structure Legible (s : Sequence) : Prop where
  metadata : s.metadata.Undone
  start : ∀ b, s.startPosition = some b → b.Legible
  beats : ∀ b ∈ s.beats, b.Legible

def rederived (s : Sequence) : Sequence := s.mapMotions Duo.rederived

theorem wellNamed_slots : Slot.WellNamed slots := ⟨by decide, by decide⟩

def values (s : Sequence) : List (Option Json) :=
  [ some (.str s.name), s.startPosition.map Beat.toJson, some (Json.list Beat.toJson s.beats),
    some s.metadata.toJson ]

theorem toJson_eq (s : Sequence) : s.toJson = .obj (present (slots.map Slot.name) s.values) := by
  rcases s with ⟨_, _ | _, _, _⟩ <;> rfl

/-- A sequence comes back with the end orientations of its motions derived anew. -/
theorem ofDoc_toJson {s : Sequence} (h : s.Legible) : ofDoc s.toJson.reread = .ok s.rederived := by
  rw [ofDoc, toJson_eq, Json.record_present wellNamed_slots]
  · rcases s with ⟨name, start, bs, m⟩
    have hbeats := Json.list_reread fun b hb => Beat.ofDoc_toJson (h.beats b hb)
    have hmetadata := Metadata.ofDoc_toJson h.metadata
    simp only [slots, values, List.map_cons, List.map_nil, Option.map_some, fillAll, Slot.fill,
      Json.reread_str, Doc.string, hbeats, hmetadata, bind, Except.bind, pure, Except.pure]
    cases start with
    | none => rfl
    | some b =>
      have hstart := Json.optional_of_ok rfl (Beat.ofDoc_toJson (h.start b rfl))
      simp only [Option.map_some, hstart]
      rfl
  · simp [slots, values, Slot.Served]

end Sequence

end KineticAlphabet
