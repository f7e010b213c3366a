import KineticAlphabet.Proofs.Difficulty
import KineticAlphabet.Proofs.Indenting
import KineticAlphabet.Proofs.Revising
/-!
Records come back from their texts. Whatever is written, on one line or over several, is read as it
was, with the end orientations of its motions derived anew, and so the text may state any. Where the
motions are consistent nothing changes. Generated sequences are of that kind: their motions follow
no explicit paths, their beats last one or no time, and their metadata are texts and a level.
-/
namespace KineticAlphabet

open Json (Doc)

namespace Json

variable {α : Type}

/-- The texts of a value: without blanks, and over several lines. -/
def texts (v : Json) : List String := [v.compact, v.pretty]

theorem readText_of_mem_texts (read : Doc → Except ReadError α) {v : Json} {text : String}
    (h : text ∈ v.texts) : Doc.readText read text = read v.reread := by
  have htext : Doc.ofText text = (v.reread, false) := by
    rcases List.mem_pair.mp h with rfl | rfl
    · exact ofText_compact v
    · exact ofText_pretty v
  simp only [Doc.readText, htext]
  cases read v.reread <;> rfl

theorem undone_str (s : String) : (str s).Undone := congrArg (Doc.toJson? _) (reread_str s)

theorem undone_nat {n : Nat} (h : n < UInt64.size) : (nat n).Undone :=
  congrArg (Doc.toJson? _) (reread_nat h)

theorem undone_zero : (float (.zero false)).Undone := congrArg (Doc.toJson? _) reread_zero

theorem undone_half {n : Nat} (h : n < 2 ^ 32) : (float (.ofRat ((n : Rat) / 2))).Undone :=
  congrArg (Doc.toJson? _) (reread_half h)

theorem undone_one : (float (.ofRat 1)).Undone := by
  have h := undone_half (n := 2) (by decide)
  have h2 : ((2 : Nat) / 2 : Rat) = 1 := by norm_num
  rwa [h2] at h

end Json

/-- A kind of records comes back from its texts. A legible value comes back with the end
orientations of its motions derived anew, so one whose motions are consistent comes back as it is,
and what the texts say of end orientations has no effect. -/
structure ComesBack {α : Type} (toJson : α → Json) (ofDoc : Doc → Except ReadError α)
    (Legible Consistent : α → Prop) (rederived : α → α) : Prop where
  rederives : ∀ a, Legible a → ∀ text ∈ (toJson a).texts,
    Doc.readText ofDoc text = .ok (rederived a)
  keeps : ∀ a, Legible a → Consistent a → ∀ text ∈ (toJson a).texts, Doc.readText ofDoc text = .ok a
  ignores : ∀ a w, (toJson a).Revised w → ∀ text ∈ (toJson a).texts, ∀ text' ∈ w.texts,
    Doc.readText ofDoc text' = Doc.readText ofDoc text

theorem ComesBack.intro {α : Type} {toJson : α → Json} {ofDoc : Doc → Except ReadError α}
    {Legible Consistent : α → Prop} {rederived : α → α}
    (hread : ∀ a, Legible a → ofDoc (toJson a).reread = .ok (rederived a))
    (hsame : ∀ a, Consistent a → rederived a = a) (hdeaf : ∀ a, Json.Deaf ofDoc (toJson a)) :
    ComesBack toJson ofDoc Legible Consistent rederived where
  rederives a ha text h := (Json.readText_of_mem_texts ofDoc h).trans (hread a ha)
  keeps a ha hc text h := by
    rw [Json.readText_of_mem_texts ofDoc h, hread a ha, hsame a hc]
  ignores a w hw text h text' h' := by
    rw [Json.readText_of_mem_texts ofDoc h, Json.readText_of_mem_texts ofDoc h', hdeaf a w hw]

theorem Duo.rederived_eq_self {ms : Motions} (h : ms.Every Motion.Consistent) :
    ms.rederived = ms := by
  have hactor : ∀ a, (ms.get a).map Motion.rederive = ms.get a := by
    intro a
    cases hm : ms.get a with
    | none => rfl
    | some m => exact congrArg some ((Motion.rederive_eq_self_iff m).mpr (h a m hm))
  exact Duo.ext (hactor .blue) (hactor .red)

theorem Beat.rederived_eq_self {b : Beat} (h : b.motions.Every Motion.Consistent) :
    b.rederived = b := by
  rw [rederived, mapMotions, Duo.rederived_eq_self h]

theorem Pictograph.rederived_eq_self {p : Pictograph} (h : p.motions.Every Motion.Consistent) :
    p.rederived = p := by
  rw [rederived, Duo.rederived_eq_self h]

theorem Sequence.rederived_eq_self {s : Sequence} (h : s.Every Motion.Consistent) :
    s.rederived = s := by
  have hstart : s.startPosition.map (Beat.mapMotions Duo.rederived) = s.startPosition := by
    cases hs : s.startPosition with
    | none => rfl
    | some b => exact congrArg some (Beat.rederived_eq_self (h.1 b hs))
  have hbeats : s.beats.map (Beat.mapMotions Duo.rederived) = s.beats :=
    (List.map_congr_left (g := id) fun b hb => Beat.rederived_eq_self (h.2 b hb)).trans
      (List.map_id _)
  rw [rederived, mapMotions, hstart, hbeats]

namespace Metadata

theorem undone_empty : empty.Undone := nofun

theorem Undone.insert {m : Metadata} (h : m.Undone) (name : String) {v : Json} (hv : v.Undone) :
    (m.insert name v).Undone := by
  intro f hf
  rcases Json.mem_putField hf with rfl | hf
  · exact hv
  · exact h f hf

end Metadata

def Motion.Pathless (m : Motion) : Prop := m.path = none

namespace Motion

variable {m m' : Motion}

theorem Pathless.legible (h : m.Pathless) : m.Legible := by
  intro path hp
  rw [h] at hp
  cases hp

theorem pathless_of_mem_options {l : Location} (h : m ∈ options l) : m.Pathless := by
  simp only [options, List.mem_cons, List.not_mem_nil, or_false] at h
  rcases h with rfl | rfl | rfl | rfl | rfl | rfl <;> rfl

/-- No symmetry adds a path. -/
theorem isKept_pathless : IsKept Pathless where
  rotated _ h := h
  mirrored h := h
  complement {m} h := by
    rcases m with ⟨_ | _ | _ | _ | _⟩ <;> exact h
  outline {m m'} ho h := (congrArg path ho).trans h

end Motion

namespace Generation

open KineticAlphabet.Random

variable {c : Config} {start b : Beat} {beats : List Beat} {locks locks' : Locks}
  {goal : Option (Duo Location)} {m m' : Motion} {lock : Option Rotation}

theorem Dressed.pathless (h : Dressed c lock m m') (hm : m.Pathless) : m'.Pathless := by
  cases h <;> exact hm

theorem Step.every_pathless (h : Step c start goal beats locks b locks') :
    b.motions.Every Motion.Pathless := by
  cases h with
  | @intro state ms hs hd hp =>
    refine .of_outline Motion.isKept_pathless (outline_assemble _ _ _ _) ?_
    cases hd with
    | @intro plain dressed l hcand hdress =>
      intro a m ha
      rw [Duo.get_map] at ha
      cases ha
      exact (hdress a).pathless (Motion.pathless_of_mem_options (hcand.options a))

theorem Built.every_pathless (h : Built c start beats) :
    ∀ b ∈ beats, b.motions.Every Motion.Pathless :=
  h.every Motion.isKept_pathless fun hp => hp.forall_mem fun _ hb => hb.every_pathless

/-- A beat that leads from one state to another has consistent motions only. -/
theorem every_consistent_of_carries {before after : Duo Stance} (h : b.Carries before after) :
    b.motions.Every Motion.Consistent := by
  obtain ⟨ms, hms, hcons, -⟩ := h.motions
  intro a m hm
  rw [hms, Duo.get_map] at hm
  cases hm
  exact hcons a

theorem Started.legible (h : Started c start) : start.Legible := by
  cases h with
  | @intro hands h =>
    refine ⟨Json.undone_nat (n := 0) (by decide), Json.undone_zero, fun a m hm => ?_⟩
    refine Motion.Pathless.legible ?_
    cases a <;> cases hm <;> rfl

/-- A joined beat lasts as long as any other. -/
theorem Joined.legible {mss : List Motions} {last : Duo Stance} (h : Joined start mss beats last)
    (hlen : beats.length < UInt64.size) (hpath : ∀ b ∈ beats, b.motions.Every Motion.Pathless) :
    ∀ b ∈ beats, b.Legible := by
  intro b hb
  obtain ⟨i, hi⟩ := List.mem_iff_getElem?.mp hb
  obtain ⟨hlt, -⟩ := List.getElem?_eq_some_iff.mp hi
  obtain ⟨_, _, _, _, -, rfl, -⟩ := h.exists_assemble hi
  exact ⟨Json.undone_nat (Nat.lt_of_le_of_lt hlt hlen), Json.undone_one,
    fun a m hm => (hpath _ hb a m hm).legible⟩

/-- The metadata of a generated sequence are texts, and the level. -/
theorem finish_metadata_undone (hc : c.Admitted) :
    (finish c start beats).metadata.Undone := by
  have hlevel : (Json.nat c.level).Undone :=
    Json.undone_nat (Nat.lt_of_le_of_lt hc.level_le (by decide))
  have hdescribed (mode : Mode) :=
    Metadata.undone_empty.insert "mode" (Json.undone_str mode.name)
      |>.insert "level" hlevel
      |>.insert "grid_mode" (Json.undone_str c.grid.name)
      |>.insert "prop_continuity" (Json.undone_str c.continuity.name)
  unfold finish
  cases c.mode with
  | freeform => exact hdescribed .freeform
  | circular =>
    exact hdescribed .circular
      |>.insert "cap_type" (Json.undone_str c.cap.name)
      |>.insert "slice_size" (Json.undone_str c.slice.name)

/-- A generated sequence is legible, and its motions are consistent. -/
theorem legible_of_generate {σ : Type} {source : Source σ} {s : σ} {q : Sequence}
    (h : ((generate source c).run s).1 = .ok q) (hlen : c.length < UInt64.size) :
    q.Legible ∧ q.Every Motion.Consistent := by
  obtain ⟨start, beats, hc, hs, hb, rfl⟩ := exists_built source h
  obtain ⟨mss, first, last, hj, -, hl, -⟩ := hb.exists_joined hc hs
  have hstart : (finish c start beats).startPosition = some start := by
    rw [finish_startPosition, hs.number_eq]
  have hbeats : (finish c start beats).beats = beats := by rw [finish_beats, hb.renumber_eq hc hs]
  refine ⟨⟨finish_metadata_undone hc, ?_, ?_⟩, ?_, ?_⟩
  · rw [hstart]
    rintro _ ⟨⟩
    exact hs.legible
  · rw [hbeats]
    exact hj.legible (hl ▸ hlen) hb.every_pathless
  · rw [hstart]
    rintro _ ⟨⟩
    obtain ⟨hands, -, -, hcarries⟩ := hs.exists_carries
    exact every_consistent_of_carries hcarries
  · rw [hbeats]
    intro b hmem
    obtain ⟨i, hi⟩ := List.mem_iff_getElem?.mp hmem
    obtain ⟨-, before, after, hcarries, -⟩ := hj.getElem? hi
    exact every_consistent_of_carries hcarries

end Generation

/-- Motions, pictographs, beats and sequences come back from their texts. A generated sequence comes
back as it is; its length is a count of 64 bits. -/
theorem records_comeBack :
    ComesBack Motion.toJson Motion.ofDoc Motion.Legible Motion.Consistent Motion.rederive ∧
    ComesBack Pictograph.toJson Pictograph.ofDoc Pictograph.Legible
      (·.motions.Every Motion.Consistent) Pictograph.rederived ∧
    ComesBack Beat.toJson Beat.ofDoc Beat.Legible (·.motions.Every Motion.Consistent)
      Beat.rederived ∧
    ComesBack Sequence.toJson Sequence.ofDoc Sequence.Legible (·.Every Motion.Consistent)
      Sequence.rederived ∧
    ∀ {σ : Type} (source : Random.Source σ) (c : Config) (s : σ) (q : Sequence),
      c.length < UInt64.size → ((Generation.generate source c).run s).1 = .ok q →
      ∀ text ∈ q.toJson.texts, Doc.readText Sequence.ofDoc text = .ok q := by
  have hsequence : ComesBack Sequence.toJson Sequence.ofDoc Sequence.Legible
      (·.Every Motion.Consistent) Sequence.rederived :=
    .intro (fun _ => Sequence.ofDoc_toJson) (fun _ => Sequence.rederived_eq_self)
      Sequence.deaf_ofDoc
  refine ⟨?_, ?_, ?_, hsequence, fun source c s q hlen hq => ?_⟩
  · exact .intro (fun _ => Motion.ofDoc_toJson) (fun m => m.rederive_eq_self_iff.mpr)
      Motion.deaf_ofDoc
  · exact .intro (fun _ => Pictograph.ofDoc_toJson) (fun _ => Pictograph.rederived_eq_self)
      Pictograph.deaf_ofDoc
  · exact .intro (fun _ => Beat.ofDoc_toJson) (fun _ => Beat.rederived_eq_self) Beat.deaf_ofDoc
  · obtain ⟨hlegible, hconsistent⟩ := Generation.legible_of_generate hq hlen
    exact hsequence.keeps q hlegible hconsistent

/-- A blend with one and a half turns along an explicit path. It does not end as it says. -/
def wandering : Motion :=
  { motionType := .pro, blend := .both, startLocation := .n, endLocation := .e, turns := .half 3,
    spin := .cw, startOrientation := .inward, endOrientation := .inward,
    path := some [⟨.ofRat 1, .zero false⟩] }

def wanderingSilently : Json :=
  .obj
    [ ("motionType", .str "pro"), ("blend", .str "both"), ("startLocation", .str "n"),
      ("endLocation", .str "e"), ("turns", Turns.toJson (.half 3)),
      ("propRotationDirection", .str "cw"), ("startOrientation", .str "in"),
      ("path", Json.list Point.toJson [⟨.ofRat 1, .zero false⟩]) ]

/-- A sequence with that motion and with metadata. -/
def stroll : Sequence :=
  { name := "", startPosition := none
    beats := [{ Beat.empty 1 with motions := ⟨some wandering, none⟩ }]
    metadata := Metadata.empty.insert "take" (.nat 2) }

/-- The motion comes back as it ends, also where its record does not say how, and so does the
sequence that holds it. What the first seed generates comes back as it is. -/
theorem records_comeBack_wandering :
    wandering.Legible ∧ ¬ wandering.Consistent ∧ wandering.toJson.Revised wanderingSilently ∧
    (∀ text ∈ wanderingSilently.texts, Doc.readText Motion.ofDoc text = .ok wandering.rederive) ∧
    stroll.Legible ∧
    (∀ text ∈ stroll.toJson.texts, Doc.readText Sequence.ofDoc text = .ok stroll.rederived) ∧
    ∃ q, ((Generation.generate Random.ChaCha.source Config.advanced).run (.ofSeed 0)).1 = .ok q ∧
      ∀ text ∈ q.toJson.texts, Doc.readText Sequence.ofDoc text = .ok q := by
  obtain ⟨hmotion, -, -, hsequence, hgenerated⟩ := records_comeBack
  have hlegible : wandering.Legible := by
    rintro _ ⟨⟩ p hp
    rw [List.mem_singleton.mp hp]
    exact ⟨Json.undone_one, Json.undone_zero⟩
  have hstroll : stroll.Legible := by
    have htake : (Json.nat 2).Undone := Json.undone_nat (by decide)
    refine ⟨Metadata.undone_empty.insert "take" htake, ?_, ?_⟩
    · rintro _ ⟨⟩
    · intro b hb
      rw [List.mem_singleton.mp hb]
      refine ⟨Json.undone_nat (n := 1) (by decide), Json.undone_one, ?_⟩
      rintro (_ | _) _ ⟨⟩
      exact hlegible
  have hrevised : wandering.toJson.Revised wanderingSilently :=
    .fields (.cons (.same "motionType" _) <| .cons (.same "blend" _) <|
      .cons (.same "startLocation" _) <| .cons (.same "endLocation" _) <|
      .cons (.same "turns" _) <| .cons (.same "propRotationDirection" _) <|
      .cons (.same "startOrientation" _) <| .cons (.dropped "in") <| .cons (.same "path" _) .nil)
  have hc : Config.advanced.check = .ok () := Config.check_eq_ok_iff.mpr Config.admitted_advanced
  obtain ⟨q, hq⟩ := Generation.exists_sequence Random.ChaCha.source hc rfl rfl (.ofSeed 0)
  refine ⟨hlegible, by decide, hrevised, fun text h => ?_, hstroll,
    hsequence.rederives stroll hstroll, q, hq,
    hgenerated Random.ChaCha.source Config.advanced _ q (by decide) hq⟩
  have hcompact : wandering.toJson.compact ∈ wandering.toJson.texts := List.mem_cons_self
  rw [hmotion.ignores wandering _ hrevised _ hcompact text h]
  exact hmotion.rederives wandering hlegible _ hcompact

end KineticAlphabet
