import KineticAlphabet.Proofs.Records
/-!
Records that state other end orientations. What a written record says of the end orientations of its
motions can be changed, made null or dropped: reading does not notice.
-/
namespace KineticAlphabet

open Json (Doc)

namespace Json

mutual

/-- A value in which some end orientations are stated otherwise or not at all. Metadata are left
alone, whatever they call their fields. -/
inductive Revised : Json → Json → Prop
  | same (v : Json) : Revised v v
  | items {vs ws : List Json} (h : List.Forall₂ Revised vs ws) : Revised (.arr vs) (.arr ws)
  | fields {fs : List (String × Json)} {ws : List (Option Json)}
      (h : List.Forall₂ RevisedField fs ws) :
      Revised (.obj fs) (.obj (present (fs.map Prod.fst) ws))

/-- What may be put into a field in place of its value, or that it is dropped. -/
inductive RevisedField : String × Json → Option Json → Prop
  | same (name : String) (v : Json) : RevisedField (name, v) (some v)
  | within {name : String} {v w : Json} (hname : name ≠ "metadata") (h : Revised v w) :
      RevisedField (name, v) (some w)
  | changed (s t : String) : RevisedField ("endOrientation", .str s) (some (.str t))
  | nulled (s : String) : RevisedField ("endOrientation", .str s) (some .null)
  | dropped (s : String) : RevisedField ("endOrientation", .str s) none

end

variable {α β σ : Type} {v w : Json}

/-- Reading does not notice a revision of a value. -/
def Deaf (read : Doc → α) (v : Json) : Prop := ∀ w, v.Revised w → read w.reread = read v.reread

section

variable (read : Doc → α)

@[simp] theorem deaf_bool (b : Bool) : Deaf read (.bool b) := by
  rintro _ ⟨⟩
  rfl

@[simp] theorem deaf_int (n : Int) : Deaf read (.int n) := by
  rintro _ ⟨⟩
  rfl

@[simp] theorem deaf_float (x : Binary64) : Deaf read (.float x) := by
  rintro _ ⟨⟩
  rfl

@[simp] theorem deaf_str (s : String) : Deaf read (.str s) := by
  rintro _ ⟨⟩
  rfl

end

/-- Putting what was read into a record. -/
@[simp] theorem Deaf.put {read : Doc → Except ReadError α} (h : Deaf read v) (f : σ → α → σ) :
    Deaf (fun d s => f s <$> read d) v := by
  intro w hw
  simp only [h w hw]

theorem Deaf.optional {read : Doc → Except ReadError α} (h : Deaf read v) :
    Deaf (Doc.optional read) v := by
  intro w hw
  have hread := h w hw
  cases hw with
  | same => rfl
  | items =>
    rw [reread_arr, reread_arr] at hread ⊢
    exact congrArg (Except.map some) hread
  | fields =>
    rw [reread_obj, reread_obj] at hread ⊢
    exact congrArg (Except.map some) hread

theorem deaf_list {read : Doc → Except ReadError β} {encode : α → Json} {as : List α}
    (h : ∀ a ∈ as, Deaf read (encode a)) : Deaf (Doc.list read) (list encode as) := by
  intro w hw
  cases hw with
  | same => rfl
  | @items _ ws hitems =>
    have heq : ws.map (fun w => read w.reread) = as.map fun a => read (encode a).reread := by
      induction as generalizing ws with
      | nil =>
        cases hitems
        rfl
      | cons a as ih =>
        rw [List.forall_mem_cons] at h
        cases hitems with
        | cons hv hvs => rw [List.map_cons, List.map_cons, h.1 _ hv, ih h.2 hvs]
    -- what a list is read as depends only on what its items are read as
    have hmapM : ∀ ds : List Doc, ds.mapM read = (ds.map read).mapM id := fun ds => by
      rw [List.mapM_map]
      rfl
    simp only [list, reread_arr, Doc.list, hmapM, List.map_map, Function.comp_def, heq]

/-- A slot that is filled in the same way whatever a revision makes of its field: metadata are left
alone, reading any other value does not notice, and an end orientation is read over. -/
def Heedless (slot : Slot Doc σ) (v : Option Json) : Prop :=
  slot.Served v ∧ ∀ a, v = some a → (slot.name = "metadata" ∨ Deaf slot.read a) ∧
    (slot.name = "endOrientation" →
      slot.presence ≠ .always ∧ slot.read .null = .ok ∧ ∀ s, slot.read (.str s) = .ok)

theorem Heedless.fill_eq {slot : Slot Doc σ} {u : Option Json} (h : Heedless slot (some v))
    (hu : RevisedField (slot.name, v) u) :
    slot.Served u ∧ slot.fill (u.map reread) = slot.fill (some v.reread) := by
  obtain ⟨hserved, hv⟩ := h
  obtain ⟨hdeaf, hover⟩ := hv v rfl
  generalize slot.name = name at hu hdeaf hover
  cases hu with
  | same => exact ⟨hserved, rfl⟩
  | within hname hw => exact ⟨.inr rfl, hdeaf.resolve_left hname _ hw⟩
  | changed s t =>
    obtain ⟨-, -, hstr⟩ := hover rfl
    exact ⟨.inr rfl, by simp [Slot.fill, hstr]⟩
  | nulled s =>
    obtain ⟨-, hnull, hstr⟩ := hover rfl
    exact ⟨.inr rfl, by simp [Slot.fill, hnull, hstr]⟩
  | dropped s =>
    obtain ⟨hpresence, -, hstr⟩ := hover rfl
    exact ⟨.inl hpresence, by simp [Slot.fill, hstr]⟩

/-- The fields of a record whose slots take no notice of revisions. -/
theorem exists_present_of_revised {slots : List (Slot Doc σ)} {vs : List (Option Json)}
    (h : List.Forall₂ Heedless slots vs) {ws : List (Option Json)}
    (hrev : List.Forall₂ RevisedField (present (slots.map Slot.name) vs) ws) :
    ∃ us, present ((present (slots.map Slot.name) vs).map Prod.fst) ws =
        present (slots.map Slot.name) us ∧
      List.Forall₂ Slot.Served slots us ∧
      fillAll slots (us.map (Option.map reread)) = fillAll slots (vs.map (Option.map reread)) := by
  -- a slot without a field has nothing to revise, so both lists go on behind it
  induction h generalizing ws with
  | nil => exact ⟨[], by cases hrev; rfl, .nil, rfl⟩
  | @cons slot v slots vs hslot _ ih =>
    cases v with
    | none =>
      obtain ⟨us, hus, hserved, hfill⟩ := ih hrev
      refine ⟨none :: us, hus, .cons hslot.1 hserved, ?_⟩
      funext s
      simp only [List.map_cons, Option.map_none, fillAll, hfill]
    | some v =>
      cases hrev with
      | @cons _ u _ ws hv hws =>
        obtain ⟨us, hus, hserved, hfill⟩ := ih hws
        obtain ⟨hu, hsame⟩ := hslot.fill_eq hv
        refine ⟨u :: us, ?_, .cons hu hserved, ?_⟩
        · exact congrArg _ hus
        · funext s
          simp only [List.map_cons, Option.map_some, fillAll, hfill, hsame]

theorem deaf_record {slots : List (Slot Doc σ)} (hslots : Slot.WellNamed slots)
    {vs : List (Option Json)} (h : List.Forall₂ Heedless slots vs) (start : σ) :
    Deaf (Doc.record slots start) (obj (present (slots.map Slot.name) vs)) := by
  intro w hw
  cases hw with
  | same => rfl
  | fields hfields =>
    obtain ⟨us, hus, hserved, hfill⟩ := exists_present_of_revised h hfields
    rw [hus, record_present hslots hserved, record_present hslots (h.imp fun _ _ hv => hv.1), hfill]

end Json

open Json

theorem Point.deaf_ofDoc (p : Point) : Deaf ofDoc p.toJson := by
  rw [toJson_eq]
  refine deaf_record wellNamed_slots ?_ _
  simp [slots, Heedless, Slot.name, Slot.Served]

theorem Duo.deaf_flagsOfDoc (fs : Duo Bool) : Deaf flagsOfDoc (flagsToJson fs) := by
  rw [flagsToJson_eq]
  refine deaf_record wellNamed_flagSlots ?_ _
  simp [flagSlots, Heedless, Slot.name, Slot.Served]

namespace Motion

theorem heedless_values (m : Motion) : List.Forall₂ Heedless Draft.slots m.values := by
  have hturns : ∀ read : Doc → Draft → Except ReadError Draft, Deaf read m.turns.toJson := by
    intro read
    cases m.turns <;> simp [Turns.toJson]
  have hpath (ps : List Point) :
      Deaf (Doc.optional (Doc.list Point.ofDoc)) (Json.list Point.toJson ps) :=
    (deaf_list fun p _ => p.deaf_ofDoc).optional
  have hnull : (fun m : Draft => (fun _ => m) <$> Doc.optional Doc.string .null) = .ok := rfl
  have hstr (s : String) :
      (fun m : Draft => (fun _ => m) <$> Doc.optional Doc.string (.str s)) = .ok := rfl
  simp [Draft.slots, values, Heedless, Slot.name, Slot.Served, hturns, hpath, hnull, hstr]

theorem deaf_ofDoc (m : Motion) : Deaf ofDoc m.toJson := by
  rw [toJson_eq]
  have hdraft := deaf_record Draft.wellNamed_slots m.heedless_values {}
  intro w hw
  simp only [ofDoc, hdraft w hw]

end Motion

theorem Duo.deaf_motionsOfDoc (ms : Motions) : Deaf motionsOfDoc (motionsToJson ms) := by
  have hmotion (m : Motion) : Deaf (Doc.optional Motion.ofDoc) m.toJson := m.deaf_ofDoc.optional
  rw [motionsToJson_eq]
  refine deaf_record wellNamed_motionSlots ?_ _
  simp [motionSlots, Heedless, Slot.name, Slot.Served, hmotion]

theorem Pictograph.deaf_ofDoc (p : Pictograph) : Deaf ofDoc p.toJson := by
  have hmotions := p.motions.deaf_motionsOfDoc
  rw [toJson_eq]
  refine deaf_record wellNamed_slots ?_ _
  simp [slots, values, Heedless, Slot.name, Slot.Served, hmotions]

theorem Beat.deaf_ofDoc (b : Beat) : Deaf ofDoc b.toJson := by
  have hmotions := b.motions.deaf_motionsOfDoc
  have hflags := b.reversals.deaf_flagsOfDoc
  rw [toJson_eq]
  refine deaf_record wellNamed_slots ?_ _
  simp [slots, values, Heedless, Slot.name, Slot.Served, hmotions, hflags, Json.nat]

theorem Sequence.deaf_ofDoc (s : Sequence) : Deaf ofDoc s.toJson := by
  have hstart (b : Beat) : Deaf (Doc.optional Beat.ofDoc) b.toJson := b.deaf_ofDoc.optional
  have hbeats : Deaf (Doc.list Beat.ofDoc) (Json.list Beat.toJson s.beats) :=
    deaf_list fun b _ => b.deaf_ofDoc
  rw [toJson_eq]
  refine deaf_record wellNamed_slots ?_ _
  simp [slots, values, Heedless, Slot.name, Slot.Served, hstart, hbeats]

end KineticAlphabet
