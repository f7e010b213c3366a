import KineticAlphabet.Proofs.Validity
/-!
Symmetries keep sequences valid. Turning the grid, mirroring it and exchanging the actors act on the
states between beats too, and they take motions that lead from one state to another to motions that
lead from image to image. For the mirror that takes a calculation: in it flips stay flips, the cycle
of the orientations runs backwards as the spins do, and a half turn goes with it unless it has no
spin, because then it follows the clockwise cycle on both sides. What is joined stays joined, as an
image of a last state is the last state of the images.
-/
namespace KineticAlphabet

theorem Rotation.reversed_ne_none {r : Rotation} (h : r ≠ .none) : r.reversed ≠ .none := by
  cases r with
  | none => exact absurd rfl h
  | cw => decide
  | ccw => decide

namespace Orientation

variable {o : Orientation} {r : Rotation} {t : MotionType} {turns : Turns}

theorem mirrored_flipped (o : Orientation) : o.flipped.mirrored = o.mirrored.flipped := by
  cases o <;> rfl

theorem mirrored_afterWhole (o : Orientation) (t : MotionType) (n : Nat) :
    (o.afterWhole t n).mirrored = o.mirrored.afterWhole t n := by
  unfold afterWhole
  cases t <;> dsimp only <;> split <;> first | rfl | exact mirrored_flipped o

/-- In the mirror the cycle of the orientations runs the other way. -/
theorem mirrored_afterHalf_iff :
    o.mirrored.afterHalf r.reversed = (o.afterHalf r).mirrored ↔ r ≠ .none := by
  cases o <;> cases r <;> decide

theorem mirrored_afterFloat (o : Orientation) (r : Rotation) :
    (o.afterFloat r).mirrored = o.mirrored.afterFloat r.reversed := by
  cases r <;> rfl

/-- The calculation of orientations goes with the mirror, but for half turns without a spin. -/
theorem mirrored_after_iff :
    o.mirrored.after t turns r.reversed = (o.after t turns r).mirrored ↔
      t = .float ∨ (turns.hasHalf = true → r ≠ .none) := by
  unfold after
  by_cases hf : (turns.isFloat || t = .float) = true
  · rw [if_pos hf, if_pos hf]
    refine ⟨fun _ => ?_, fun _ => (mirrored_afterFloat o r).symm⟩
    rcases Bool.or_eq_true_iff.mp hf with hturns | ht
    · cases turns with
      | half n => cases hturns
      | float => exact .inr nofun
    · exact .inl (of_decide_eq_true ht)
  · -- whole turns go with the mirror in any case, so it is left to the half turn
    have ht : t ≠ .float := by
      rintro rfl
      simp at hf
    rw [if_neg hf, if_neg hf]
    dsimp only
    rw [← mirrored_afterWhole]
    by_cases hh : turns.hasHalf = true
    · rw [if_pos hh, if_pos hh, mirrored_afterHalf_iff]
      exact ⟨fun h => .inr fun _ => h, fun h => h.resolve_left ht hh⟩
    · rw [if_neg hh, if_neg hh]
      exact iff_of_true rfl (.inr fun h => absurd h hh)

end Orientation

namespace Motion

variable {m : Motion}

/-- Half turns have a spin. -/
def Directed (m : Motion) : Prop := m.turns.hasHalf = true → m.spin ≠ .none

instance (m : Motion) : Decidable m.Directed :=
  inferInstanceAs (Decidable (m.turns.hasHalf = true → m.spin ≠ .none))

theorem Directed.mirrored (h : m.Directed) : m.mirrored.Directed :=
  fun hhalf => Rotation.reversed_ne_none (h hhalf)

/-- A mirrored motion ends in the mirror image of the orientation just where it floats or its half
turns have a spin. -/
theorem mirrored_endOrientation_iff (h : m.Consistent) :
    m.mirrored.endOrientation = m.endOrientation.mirrored ↔ m.motionType = .float ∨ m.Directed := by
  rw [h]
  exact Orientation.mirrored_after_iff

end Motion

/-- Directed motions of both actors that lead from one state to another. -/
def Duo.Takes (ms : Motions) (before after : Duo Stance) : Prop :=
  ∃ d : Duo Motion, ms = d.map some ∧ (∀ a, (d.get a).Consistent ∧ (d.get a).Directed) ∧
    d.map Motion.startStance = before ∧ d.map Motion.endStance = after

/-- A map of motions that goes with a map of states: motions that lead from one state to another are
taken to motions that lead from image to image, and hands at the same locations stay together. -/
structure Symmetry (f : Motions → Motions) (g : Duo Stance → Duo Stance) : Prop where
  takes : ∀ {ms before after}, ms.Takes before after → (f ms).Takes (g before) (g after)
  locations : ∀ {here there : Duo Stance}, here.locations = there.locations →
    (g here).locations = (g there).locations

namespace Symmetry

theorem refl : Symmetry id id := ⟨id, id⟩

theorem comp {f f' : Motions → Motions} {g g' : Duo Stance → Duo Stance} (h' : Symmetry f' g')
    (h : Symmetry f g) : Symmetry (f' ∘ f) (g' ∘ g) :=
  ⟨fun ht => h'.takes (h.takes ht), fun hl => h'.locations (h.locations hl)⟩

/-- A map of single motions that goes with a map of stances works for both actors. -/
theorem of_stances {f : Motion → Motion} {g : Stance → Stance}
    (hf : ∀ m : Motion, m.Consistent → m.Directed → (f m).Consistent ∧ (f m).Directed ∧
      (f m).startStance = g m.startStance ∧ (f m).endStance = g m.endStance)
    (hg : ∀ here there : Stance, here.location = there.location →
      (g here).location = (g there).location) :
    Symmetry (Duo.map (Option.map f)) (Duo.map g) where
  takes := by
    rintro _ _ _ ⟨d, rfl, hd, rfl, rfl⟩
    obtain ⟨hcb, hdb, hsb, heb⟩ := hf d.blue (hd .blue).1 (hd .blue).2
    obtain ⟨hcr, hdr, hsr, her⟩ := hf d.red (hd .red).1 (hd .red).2
    exact ⟨d.map f, rfl, Actor.forall_iff.mpr ⟨⟨hcb, hdb⟩, hcr, hdr⟩, Duo.ext hsb hsr,
      Duo.ext heb her⟩
  locations h := Duo.ext (hg _ _ (congrArg Duo.blue h)) (hg _ _ (congrArg Duo.red h))

theorem swap : Symmetry Duo.swap Duo.swap where
  takes := by
    rintro _ _ _ ⟨d, rfl, hd, rfl, rfl⟩
    exact ⟨d.swap, rfl, Actor.forall_iff.mpr ⟨hd .red, hd .blue⟩, rfl, rfl⟩
  locations h := congrArg Duo.swap h

end Symmetry

namespace Stance

def rotated (x : Stance) (steps : Nat) : Stance := { x with location := x.location.rotated steps }

def mirrored (x : Stance) : Stance := ⟨x.location.mirrored, x.orientation.mirrored⟩

end Stance

namespace Cap

def Component.onStances (slice : Slice) : Component → Duo Stance → Duo Stance
  | rotated, state => state.map (·.rotated slice.steps)
  | mirrored, state => state.map Stance.mirrored
  | swapped, state => state.swap
  | complementary, state => state

/-- The stances of both actors one slice later. -/
def onStances (c : Cap) (slice : Slice) (state : Duo Stance) : Duo Stance :=
  c.components.foldl (fun state k => k.onStances slice state) state

theorem Component.symmetry (slice : Slice) {k : Component} (hk : k ≠ .complementary) :
    Symmetry (k.onMotions slice) (k.onStances slice) := by
  cases k with
  | rotated =>
    refine .of_stances (f := (·.rotated slice.steps)) (g := (·.rotated slice.steps))
      (fun m hc hd => ⟨rfl, hd, rfl, ?_⟩) fun here there h => ?_
    · exact congrArg (Stance.mk _) hc.symm
    · exact congrArg (Location.rotated · slice.steps) h
  | mirrored =>
    refine .of_stances (fun m hc hd => ⟨rfl, hd.mirrored, rfl, ?_⟩) fun here there h => ?_
    · exact congrArg (Stance.mk _) ((Motion.mirrored_endOrientation_iff hc).mpr (.inr hd))
    · exact congrArg Location.mirrored h
  | swapped => exact .swap
  | complementary => exact absurd rfl hk

/-- Every CAP type without the exchange of pro and anti is a symmetry. -/
theorem symmetry {c : Cap} (slice : Slice) (hc : c.has .complementary = false) :
    Symmetry (c.onMotions slice) (c.onStances slice) := by
  have hne : ∀ k ∈ c.components, k ≠ Component.complementary := by
    rintro _ hk rfl
    simp [has, hk] at hc
  unfold onMotions onStances
  generalize c.components = ks at hne
  induction ks with
  | nil => exact .refl
  | cons k ks ih =>
    rw [List.forall_mem_cons] at hne
    exact (ih hne.2).comp (Component.symmetry slice hne.1)

end Cap

namespace Beat

variable {b : Beat} {before after : Duo Stance}

def mapMotions (f : Motions → Motions) (b : Beat) : Beat := { b with motions := f b.motions }

theorem Sound.exists_takes (h : b.Sound) (hd : b.motions.Every Motion.Directed) :
    ∃ before after, b.motions.Takes before after := by
  obtain ⟨d, hchecked⟩ := h.exists_checkMotions
  have hmotions := checkMotions_eq_ok_iff.mp hchecked
  refine ⟨_, _, d, motions_of_checkMotions hchecked, fun a => ⟨(hmotions a).2, ?_⟩, rfl, rfl⟩
  exact hd a _ (hmotions a).1

theorem startState?_of_takes (h : b.motions.Takes before after) : b.startState? = some before := by
  obtain ⟨d, hd, -, rfl, -⟩ := h
  rw [startState?, hd]
  rfl

theorem endState?_of_takes (h : b.motions.Takes before after) : b.endState? = some after := by
  obtain ⟨d, hd, -, -, rfl⟩ := h
  rw [endState?, hd]
  rfl

theorem sound_of_takes (h : b.motions.Takes before after) : b.Sound := by
  obtain ⟨d, hd, hc, -⟩ := h
  exact fun a => ⟨d.get a, by rw [hd, Duo.get_map], (hc a).1⟩

variable {f : Motions → Motions} {g : Duo Stance → Duo Stance}

theorem startState?_mapMotions (hf : Symmetry f g) (h : b.motions.Takes before after) :
    (b.mapMotions f).startState? = b.startState?.map g := by
  have himage : (b.mapMotions f).motions.Takes (g before) (g after) := hf.takes h
  rw [startState?_of_takes himage, startState?_of_takes h, Option.map_some]

theorem endState?_mapMotions (hf : Symmetry f g) (h : b.motions.Takes before after) :
    (b.mapMotions f).endState? = b.endState?.map g := by
  have himage : (b.mapMotions f).motions.Takes (g before) (g after) := hf.takes h
  rw [endState?_of_takes himage, endState?_of_takes h, Option.map_some]

theorem sound_mapMotions (hf : Symmetry f g) (h : b.motions.Takes before after) :
    (b.mapMotions f).Sound := by
  have himage : (b.mapMotions f).motions.Takes (g before) (g after) := hf.takes h
  exact sound_of_takes himage

end Beat

namespace Sequence

def mapMotions (f : Motions → Motions) (s : Sequence) : Sequence :=
  { s with
    startPosition := s.startPosition.map (Beat.mapMotions f)
    beats := s.beats.map (Beat.mapMotions f) }

/-- All motions of the start position and of the beats have a property. -/
def Every (P : Motion → Prop) (s : Sequence) : Prop :=
  (∀ b, s.startPosition = some b → b.motions.Every P) ∧ ∀ b ∈ s.beats, b.motions.Every P

/-- The start position and all beats that are not blank lead from state to state. -/
structure Led (s : Sequence) : Prop where
  start : ∀ b, s.startPosition = some b → ∃ before after, b.motions.Takes before after
  beats : ∀ b ∈ s.beats, b.isBlank = false → ∃ before after, b.motions.Takes before after

variable {s : Sequence} {f : Motions → Motions} {g : Duo Stance → Duo Stance} {closed : Bool}

theorem Connected.led (h : s.Connected) (hd : s.Every Motion.Directed) : s.Led :=
  ⟨fun b hb => (h.start b hb).exists_takes (hd.1 b hb),
    fun b hb hblank => (h.sound b hb hblank).exists_takes (hd.2 b hb)⟩

theorem Led.before (h : s.Led) (n : Nat) : (s.before (n + 1)).Led :=
  ⟨h.start, fun b hb => h.beats b (List.mem_of_mem_take hb)⟩

theorem mapMotions_before (f : Motions → Motions) (s : Sequence) (n : Nat) :
    (s.mapMotions f).before (n + 1) = (s.before (n + 1)).mapMotions f := by
  simp only [mapMotions, before, List.map_take]

theorem Led.endState?_start (h : s.Led) (hf : Symmetry f g) :
    (s.mapMotions f).startPosition.bind Beat.endState? =
      (s.startPosition.bind Beat.endState?).map g := by
  unfold mapMotions
  cases hs : s.startPosition with
  | none => rfl
  | some b =>
    obtain ⟨before, after, ht⟩ := h.start b hs
    exact Beat.endState?_mapMotions hf ht

/-- The last state of the images is the image of the last state. -/
theorem Led.lastState? (h : s.Led) (hf : Symmetry f g) :
    (s.mapMotions f).lastState? = s.lastState?.map g := by
  have hfind : (s.mapMotions f).beats.reverse.find? (!·.isBlank) =
      (s.beats.reverse.find? (!·.isBlank)).map (Beat.mapMotions f) := by
    rw [mapMotions, ← List.map_reverse, List.find?_map]
    rfl
  unfold Sequence.lastState?
  rw [hfind]
  cases hb : s.beats.reverse.find? (!·.isBlank) with
  | none => exact h.endState?_start hf
  | some b =>
    have hblank := List.find?_some hb
    have hmem := List.mem_reverse.mp (List.mem_of_find?_eq_some hb)
    obtain ⟨before, after, ht⟩ := h.beats b hmem (by simpa using hblank)
    exact Beat.endState?_mapMotions hf ht

/-- The first state of the images is the image of the first state. -/
theorem Led.firstState? (h : s.Led) (hf : Symmetry f g) :
    (s.mapMotions f).firstState? = s.firstState?.map g := by
  have hfind : (s.mapMotions f).beats.find? (!·.isBlank) =
      (s.beats.find? (!·.isBlank)).map (Beat.mapMotions f) := by
    rw [mapMotions, List.find?_map]
    rfl
  have hstart := h.endState?_start hf
  unfold Sequence.firstState?
  rw [hfind]
  unfold mapMotions at hstart ⊢
  cases hs : s.startPosition with
  | some b =>
    rw [hs] at hstart
    exact hstart
  | none =>
    cases hb : s.beats.find? (!·.isBlank) with
    | none => rfl
    | some b =>
      have hblank := List.find?_some hb
      obtain ⟨before, after, ht⟩ := h.beats b (List.mem_of_find?_eq_some hb) (by simpa using hblank)
      exact Beat.startState?_mapMotions hf ht

/-- A symmetry keeps a connected sequence connected. -/
theorem Connected.mapMotions (h : s.Connected) (hd : s.Every Motion.Directed)
    (hf : Symmetry f g) : (s.mapMotions f).Connected := by
  have hled := h.led hd
  have hbeat : ∀ {i : Nat} {b : Beat}, (s.mapMotions f).beats[i]? = some b →
      ∃ b' : Beat, s.beats[i]? = some b' ∧ b'.mapMotions f = b := by
    intro i b hi
    rw [Sequence.mapMotions, List.getElem?_map] at hi
    exact Option.map_eq_some_iff.mp hi
  refine ⟨?_, ?_, ?_, ?_⟩
  · intro i b hi
    obtain ⟨b, hb, rfl⟩ := hbeat hi
    exact h.numbered i b hb
  · intro b hb
    obtain ⟨b', hb', rfl⟩ := Option.map_eq_some_iff.mp hb
    obtain ⟨before, after, ht⟩ := hled.start b' hb'
    exact Beat.sound_mapMotions hf ht
  · intro b hb hblank
    obtain ⟨b', hb', rfl⟩ := List.mem_map.mp hb
    obtain ⟨before, after, ht⟩ := hled.beats b' hb' hblank
    exact Beat.sound_mapMotions hf ht
  · intro i b hi hblank state hstate
    obtain ⟨b, hb, rfl⟩ := hbeat hi
    rw [mapMotions_before, (hled.before i).lastState? hf] at hstate
    obtain ⟨last, hlast, rfl⟩ := Option.map_eq_some_iff.mp hstate
    obtain ⟨before, after, ht⟩ := hled.beats b (List.mem_of_getElem? hb) hblank
    rw [Beat.startState?_mapMotions hf ht, h.continues i b hb hblank last hlast, Option.map_some]

/-- A symmetry keeps a valid sequence valid. -/
theorem Valid.mapMotions (h : s.Valid closed) (hd : s.Every Motion.Directed)
    (hf : Symmetry f g) : (s.mapMotions f).Valid closed := by
  have hled := h.led hd
  refine ⟨h.toConnected.mapMotions hd hf, fun hc first last hfirst hlast => ?_⟩
  rw [hled.firstState? hf] at hfirst
  rw [hled.lastState? hf] at hlast
  obtain ⟨first', hfirst', rfl⟩ := Option.map_eq_some_iff.mp hfirst
  obtain ⟨last', hlast', rfl⟩ := Option.map_eq_some_iff.mp hlast
  exact hf.locations (h.closes hc first' last' hfirst' hlast')

/-- A sequence that passes the check, all half turns of which have a spin, passes it in the image of
every CAP type without the exchange of pro and anti. As for the mirror, the derived end orientation
of a mirrored motion is the mirror image of the orientation in which the motion ended. -/
theorem validate_onMotions {c : Cap} (slice : Slice) (hc : c.has .complementary = false)
    (hv : s.validate closed = .ok ()) (hd : s.Every Motion.Directed) :
    (s.mapMotions (c.onMotions slice)).validate closed = .ok () ∧
    ∀ m : Motion, m.Consistent → m.Directed →
      m.mirrored.endOrientation = m.endOrientation.mirrored := by
  have hvalid := validate_eq_ok_iff.mp hv
  refine ⟨validate_eq_ok_iff.mpr (hvalid.mapMotions hd (Cap.symmetry slice hc)), ?_⟩
  exact fun m hm hspin => (Motion.mirrored_endOrientation_iff hm).mpr (.inr hspin)

/-- Blue goes a quarter there and back with half turns, while red turns where it stands. -/
def thereAndBack : Sequence :=
  let turning := ((Motion.staticAt .s .inward).withSpin .ccw).withTurns (.half 1)
  let there := (Motion.shift .pro .n .e .inward).withTurns (.half 1)
  let back := (Motion.shift .anti .e .n .counter).withTurns (.half 3)
  { name := "there and back"
    startPosition := some (.ofStances ⟨⟨.n, .inward⟩, ⟨.s, .inward⟩⟩ none)
    beats := [{ Beat.empty 1 with motions := ⟨some there, some turning⟩ },
      { Beat.empty 2 with motions := ⟨some back, some (turning.withStartOrientation .clock)⟩ }]
    metadata := .empty }

/-- Turned by a quarter and mirrored, they go there and back on the other side. -/
theorem validate_onMotions_thereAndBack :
    thereAndBack.validate true = .ok () ∧
    (thereAndBack.mapMotions (Cap.mirroredRotated.onMotions .quartered)).validate true = .ok () ∧
    (Motion.mirrored ((Motion.shift .pro .n .e .inward).withTurns (.half 1))).endOrientation =
      Orientation.mirrored .counter := by
  have hvalid : thereAndBack.validate true = .ok () := rfl
  have hdirected : thereAndBack.Every Motion.Directed := by
    constructor
    · rintro _ ⟨⟩ a m hm
      cases a <;> cases hm <;> decide
    · intro b hb a m hm
      simp only [thereAndBack, List.mem_cons, List.not_mem_nil, or_false] at hb
      rcases hb with rfl | rfl <;> cases a <;> cases hm <;> decide
  have hc : Cap.mirroredRotated.has .complementary = false := rfl
  obtain ⟨himage, hmirror⟩ := validate_onMotions .quartered hc hvalid hdirected
  exact ⟨hvalid, himage, hmirror _ rfl (by decide)⟩

end Sequence

end KineticAlphabet
