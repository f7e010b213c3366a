import KineticAlphabet.Proofs.Grammar
import KineticAlphabet.Proofs.Repetition
/-!
What the symmetries make of letters. Distances on the ring, the ways of the hands and the types of
the motions are all that the grammar reads, and turning and mirroring keep of them what it asks for.
Exchanging the actors shows where the letter tells which hand is anti, and exchanging pro and anti
leads to the other member of a family. A float counts as pro but has no counterpart, so the last
holds only where there is none. A CAP type acts on letters as it acts on motions, one component
after another.
-/
namespace KineticAlphabet

theorem Rotation.reversed_inj {a b : Rotation} : a.reversed = b.reversed ↔ a = b := by
  cases a <;> cases b <;> decide

namespace Location

theorem rotated_inj {a b : Location} {n : Int} : a.rotated n = b.rotated n ↔ a = b := by
  refine ⟨fun h => ?_, fun h => h ▸ rfl⟩
  have hback : ∀ l : Location, (l.rotated n).rotated (-n) = l := fun l => by
    rw [rotated_rotated]
    exact rotated_eq_self l (by omega)
  rw [← hback a, h, hback b]

theorem mirrored_inj {a b : Location} : a.mirrored = b.mirrored ↔ a = b := by
  refine ⟨fun h => ?_, congrArg mirrored⟩
  rw [← mirrored_mirrored a, h, mirrored_mirrored]

/-- The way back goes round the other side of the ring. -/
theorem stepsTo_swap (a b : Location) : b.stepsTo a = (8 - a.stepsTo b) % 8 := by
  have := a.index_lt
  have := b.index_lt
  simp only [stepsTo]
  omega

end Location

/-- A distance and the one round the other side of the ring make the same group. -/
theorem PositionGroup.ofSteps?_reverse {d : Nat} (h : d < 8) :
    ofSteps? ((8 - d) % 8) = ofSteps? d := by
  decide +revert

/-- The same ways of travel cover both. -/
theorem Travel.covers_reverse (t : Travel) {d : Nat} (h : d < 8) :
    t.covers ((8 - d) % 8) = t.covers d := by
  cases t <;> decide +revert

namespace PositionGroup

theorem ofHands?_rotated (hands : Duo Location) (n : Int) :
    ofHands? (hands.map (·.rotated n)) = ofHands? hands :=
  congrArg ofSteps? (Location.stepsTo_rotated _ _ n)

theorem ofHands?_mirrored (hands : Duo Location) :
    ofHands? (hands.map Location.mirrored) = ofHands? hands :=
  (congrArg ofSteps? (Location.stepsTo_mirrored _ _)).trans
    (ofSteps?_reverse (Location.stepsTo_lt _ _))

theorem ofHands?_swap (hands : Duo Location) : ofHands? hands.swap = ofHands? hands :=
  (congrArg ofSteps? (Location.stepsTo_swap _ _)).trans
    (ofSteps?_reverse (Location.stepsTo_lt _ _))

end PositionGroup

namespace Letter

/-- The letter with the actors exchanged. Only where two hands part does the letter tell which of
them is anti. -/
def swapped : Letter → Letter
  | U => V
  | V => U
  | l => l

/-- The letter with pro and anti exchanged. Letters of mixed pairs and of no shift stay. -/
def complement : Letter → Letter
  | A => B | B => A | D => E | E => D | G => H | H => G | J => K | K => J
  | M => N | N => M | P => Q | Q => P | S => T | T => S | U => V | V => U
  | W => X | X => W | Y => Z | Z => Y
  | sigma => delta | delta => sigma | theta => omega | omega => theta
  | crossW => crossX | crossX => crossW | crossY => crossZ | crossZ => crossY
  | crossSigma => crossDelta | crossDelta => crossSigma
  | crossTheta => crossOmega | crossOmega => crossTheta
  | l => l

/-- Only the letters of two shifts tell the actors apart. -/
theorem swapped_eq_self {l : Letter} (h : l.letterType ≠ .type1) : l.swapped = l := by
  cases l <;> first | rfl | exact absurd rfl h

/-- Letters of no shift do not tell pro from anti. -/
theorem complement_eq_self {l : Letter} (h : l.letterType ∈ [.type4, .type5, .type6]) :
    l.complement = l := by
  cases l <;> first | rfl | exact absurd h (by decide)

section

variable {ways : Duo Travel} (start stop : PositionGroup) (antis : Duo Bool)
  (anti sameWay changePlaces : Bool)

theorem ofShifts?_swap : ofShifts? start stop antis.swap sameWay changePlaces =
    (ofShifts? start stop antis sameWay changePlaces).map swapped := by
  rcases antis with ⟨_ | _, _ | _⟩ <;> cases start <;> cases stop <;> cases sameWay <;>
    cases changePlaces <;> rfl

theorem ofShifts?_complement : ofShifts? start stop (antis.map not) sameWay changePlaces =
    (ofShifts? start stop antis sameWay changePlaces).map complement := by
  rcases antis with ⟨_ | _, _ | _⟩ <;> cases start <;> cases stop <;> cases sameWay <;>
    cases changePlaces <;> rfl

theorem ofShift?_complement :
    ofShift? start stop (!anti) = (ofShift? start stop anti).map complement := by
  cases start <;> cases stop <;> cases anti <;> rfl

theorem ofCrossShift?_complement :
    ofCrossShift? start stop (!anti) = (ofCrossShift? start stop anti).map complement := by
  cases start <;> cases stop <;> cases anti <;> rfl

/-- Letters that a map of letters fixes by their type are fixed where the ways make that type. -/
theorem map_ofTravels? {f : Letter → Letter}
    (h : ∀ l : Letter, l.letterType = typeOfTravels ways → f l = l) :
    (ofTravels? ways start stop antis sameWay changePlaces).map f =
      ofTravels? ways start stop antis sameWay changePlaces := by
  cases hl : ofTravels? ways start stop antis sameWay changePlaces with
  | none => rfl
  | some l => rw [Option.map_some, h l (letterType_of_ofTravels? hl)]

theorem ofTravels?_swap : ofTravels? ways.swap start stop antis.swap sameWay changePlaces =
    (ofTravels? ways start stop antis sameWay changePlaces).map swapped := by
  by_cases hw : ways = ⟨.shift, .shift⟩
  · subst hw
    exact ofShifts?_swap start stop antis sameWay changePlaces
  · have hne : typeOfTravels ways ≠ .type1 := by
      rcases ways with ⟨_ | _ | _, _ | _ | _⟩ <;> first | exact absurd rfl hw | nofun
    rw [map_ofTravels? _ _ _ _ _ fun l hl => swapped_eq_self (hl ▸ hne)]
    rcases ways with ⟨_ | _ | _, _ | _ | _⟩ <;> first | exact absurd rfl hw | rfl

/-- The grammar asks of shifts only whether they are anti. -/
theorem ofTravels?_complement {antis' : Duo Bool}
    (h : ∀ a, ways.get a = .shift → antis'.get a = !antis.get a) :
    ofTravels? ways start stop antis' sameWay changePlaces =
      (ofTravels? ways start stop antis sameWay changePlaces).map complement := by
  have fixed (ht : typeOfTravels ways ∈ [.type4, .type5, .type6]) :
      (ofTravels? ways start stop antis sameWay changePlaces).map complement =
        ofTravels? ways start stop antis sameWay changePlaces :=
    map_ofTravels? _ _ _ _ _ fun l hl => complement_eq_self (hl ▸ ht)
  rcases ways with ⟨_ | _ | _, _ | _ | _⟩
  · obtain rfl : antis' = antis.map not := Duo.ext (h .blue rfl) (h .red rfl)
    exact ofShifts?_complement start stop antis sameWay changePlaces
  · exact (congrArg _ (h .blue rfl)).trans (ofCrossShift?_complement start stop antis.blue)
  · exact (congrArg _ (h .blue rfl)).trans (ofShift?_complement start stop antis.blue)
  · exact (congrArg _ (h .red rfl)).trans (ofCrossShift?_complement start stop antis.red)
  · exact (fixed (by decide)).symm
  · exact (fixed (by decide)).symm
  · exact (congrArg _ (h .red rfl)).trans (ofShift?_complement start stop antis.red)
  · exact (fixed (by decide)).symm
  · exact (fixed (by decide)).symm

end

end Letter

namespace Motion

theorem travelsWell_rotated (m : Motion) (n : Nat) : (m.rotated n).travelsWell = m.travelsWell :=
  congrArg m.travel.covers (Location.stepsTo_rotated _ _ n)

theorem travelsWell_mirrored (m : Motion) : m.mirrored.travelsWell = m.travelsWell :=
  (congrArg m.travel.covers (Location.stepsTo_mirrored _ _)).trans
    (m.travel.covers_reverse (Location.stepsTo_lt _ _))

theorem handRotation_rotated (m : Motion) (n : Nat) :
    (m.rotated n).handRotation = m.handRotation :=
  Location.handRotation_rotated _ _ n

theorem handRotation_mirrored (m : Motion) : m.mirrored.handRotation = m.handRotation.reversed :=
  Location.handRotation_mirrored _ _

theorem travel_complement (m : Motion) : m.complement.travel = m.travel := by
  rcases m with ⟨_ | _ | _ | _ | _⟩ <;> rfl

/-- Of the two ways of a shift the other one is anti, unless the shift is a float. -/
theorem isAnti_complement {m : Motion} (hf : m.motionType ≠ .float) (hs : m.travel = .shift) :
    m.complement.isAnti = !m.isAnti := by
  rcases m with ⟨_ | _ | _ | _ | _⟩ <;> first | rfl | exact absurd rfl hf | cases hs

end Motion

namespace Letter

variable {ms ms' : Duo Motion}

/-- Motions that go the same distances between the same position groups spell letters of one row. -/
theorem ofMotions?_eq_map {f : Letter → Letter}
    (hw : ms'.all Motion.travelsWell = ms.all Motion.travelsWell)
    (hs : PositionGroup.ofHands? (ms'.map Motion.startLocation) =
      PositionGroup.ofHands? (ms.map Motion.startLocation))
    (he : PositionGroup.ofHands? (ms'.map Motion.endLocation) =
      PositionGroup.ofHands? (ms.map Motion.endLocation))
    (hl : ∀ start stop, ofTravels? (ms'.map Motion.travel) start stop (ms'.map Motion.isAnti)
        (ms'.blue.handRotation = ms'.red.handRotation)
        (ms'.blue.endLocation = ms'.red.startLocation &&
          ms'.red.endLocation = ms'.blue.startLocation) =
      (ofTravels? (ms.map Motion.travel) start stop (ms.map Motion.isAnti)
        (ms.blue.handRotation = ms.red.handRotation)
        (ms.blue.endLocation = ms.red.startLocation &&
          ms.red.endLocation = ms.blue.startLocation)).map f) :
    ofMotions? ms' = (ofMotions? ms).map f := by
  rw [ofMotions?_eq, ofMotions?_eq, hw, hs, he]
  split
  · simp only [hl, Option.map_bind, Function.comp_def]
  · rfl

variable (ms : Duo Motion)

theorem ofMotions?_rotated (n : Nat) : ofMotions? (ms.map (·.rotated n)) = ofMotions? ms := by
  have h : ofMotions? (ms.map (·.rotated n)) = (ofMotions? ms).map id := by
    refine ofMotions?_eq_map ?_ (PositionGroup.ofHands?_rotated (ms.map Motion.startLocation) n)
      (PositionGroup.ofHands?_rotated (ms.map Motion.endLocation) n) fun start stop => ?_
    · simp only [Duo.all, Duo.map, Motion.travelsWell_rotated]
    · rw [Option.map_id]
      simp only [Duo.map, Motion.handRotation_rotated]
      simp only [Motion.rotated, Motion.rederive, Location.rotated_inj]
      rfl
  exact h.trans (congrFun Option.map_id _)

theorem ofMotions?_mirrored : ofMotions? (ms.map Motion.mirrored) = ofMotions? ms := by
  have h : ofMotions? (ms.map Motion.mirrored) = (ofMotions? ms).map id := by
    refine ofMotions?_eq_map ?_ (PositionGroup.ofHands?_mirrored (ms.map Motion.startLocation))
      (PositionGroup.ofHands?_mirrored (ms.map Motion.endLocation)) fun start stop => ?_
    · simp only [Duo.all, Duo.map, Motion.travelsWell_mirrored]
    · rw [Option.map_id]
      simp only [Duo.map, Motion.handRotation_mirrored, Rotation.reversed_inj]
      simp only [Motion.mirrored, Motion.rederive, Location.mirrored_inj]
      rfl
  exact h.trans (congrFun Option.map_id _)

theorem ofMotions?_swap : ofMotions? ms.swap = (ofMotions? ms).map swapped := by
  refine ofMotions?_eq_map (Bool.and_comm _ _)
    (PositionGroup.ofHands?_swap (ms.map Motion.startLocation))
    (PositionGroup.ofHands?_swap (ms.map Motion.endLocation)) fun start stop => ?_
  rw [Duo.map_swap, Duo.map_swap, ← ofTravels?_swap]
  congr 1
  · exact decide_eq_decide.mpr eq_comm
  · exact Bool.and_comm _ _

theorem ofMotions?_complement (hf : ∀ a, (ms.get a).motionType ≠ .float) :
    ofMotions? (ms.map Motion.complement) = (ofMotions? ms).map complement := by
  refine ofMotions?_eq_map ?_ ?_ ?_ fun start stop => ?_
  · simp only [Duo.all, Duo.map, Motion.travelsWell, Motion.travel_complement,
      Motion.complement_startLocation, Motion.complement_endLocation]
  · simp only [Duo.map, Motion.complement_startLocation]
  · simp only [Duo.map, Motion.complement_endLocation]
  · have hanti : ∀ a, (ms.map Motion.travel).get a = .shift →
        ((ms.map Motion.complement).map Motion.isAnti).get a = !(ms.map Motion.isAnti).get a := by
      intro a ha
      rw [Duo.get_map] at ha
      rw [Duo.get_map, Duo.get_map, Duo.get_map, Motion.isAnti_complement (hf a) ha]
    rw [← ofTravels?_complement start stop _ _ _ hanti]
    simp only [Duo.map, Motion.handRotation, Motion.travel_complement,
      Motion.complement_startLocation, Motion.complement_endLocation]
    congr

end Letter

def Duo.letter? (ms : Motions) : Option Letter := ms.both?.bind Letter.ofMotions?

namespace Cap

def Component.onLetter : Component → Letter → Letter
  | rotated, l | mirrored, l => l
  | swapped, l => l.swapped
  | complementary, l => l.complement

/-- What a CAP type makes of a letter. -/
def onLetter (c : Cap) (l : Letter) : Letter := c.components.foldl (fun l k => k.onLetter l) l

variable {ms : Motions}

/-- No symmetry makes a float. -/
theorem isCarried_ne_float : Motion.IsCarried (·.motionType ≠ .float) where
  rotated _ h := h
  mirrored h := h
  complement {m} h := by
    rcases m with ⟨_ | _ | _ | _ | _⟩ <;> first | exact absurd rfl h | nofun

theorem Component.letter?_onMotions (k : Component) (slice : Slice)
    (hf : k = .complementary → ms.Every (·.motionType ≠ .float)) :
    (k.onMotions slice ms).letter? = ms.letter?.map k.onLetter := by
  rcases ms with ⟨_ | blue, _ | red⟩
  case some.some =>
    let ms : Duo Motion := ⟨blue, red⟩
    cases k with
    | rotated =>
      exact (Letter.ofMotions?_rotated ms slice.steps).trans (congrFun Option.map_id _).symm
    | mirrored => exact (Letter.ofMotions?_mirrored ms).trans (congrFun Option.map_id _).symm
    | swapped => exact Letter.ofMotions?_swap ms
    | complementary =>
      refine Letter.ofMotions?_complement ms fun a => hf rfl a _ ?_
      cases a <;> rfl
  all_goals cases k <;> rfl

/-- A CAP type changes a letter by its components one after another. -/
theorem letter?_onMotions_of_floatless (c : Cap) (slice : Slice)
    (hf : c.has .complementary = true → ms.Every (·.motionType ≠ .float)) :
    (c.onMotions slice ms).letter? = ms.letter?.map c.onLetter := by
  have hf' : .complementary ∈ c.components → ms.Every (·.motionType ≠ .float) :=
    fun h => hf (List.contains_iff_mem.mpr h)
  unfold onMotions onLetter
  clear hf
  generalize c.components = ks at hf'
  induction ks generalizing ms with
  | nil => simp
  | cons k ks ih =>
    rw [List.foldl_cons, ih, Component.letter?_onMotions, Option.map_map]
    · rfl
    · rintro rfl
      exact hf' List.mem_cons_self
    · intro h
      exact Component.every_onMotions isCarried_ne_float slice k (hf' (List.mem_cons_of_mem k h))

/-- Types that only turn and mirror the grid keep the letters. -/
theorem onLetter_eq_self {c : Cap} (hs : c.has .swapped = false) (hc : c.has .complementary = false)
    (l : Letter) : c.onLetter l = l := by
  cases c <;> first | rfl | exact absurd hs (by decide) | exact absurd hc (by decide)

theorem letter?_onMotions_of_plain {c : Cap} (slice : Slice) (hs : c.has .swapped = false)
    (hc : c.has .complementary = false) : (c.onMotions slice ms).letter? = ms.letter? := by
  rw [letter?_onMotions_of_floatless c slice (fun h => absurd h (by rw [hc]; decide)),
    funext (onLetter_eq_self hs hc)]
  exact congrFun Option.map_id _

theorem letter?_onMotionsN {c : Cap} (slice : Slice) (hs : c.has .swapped = false)
    (hc : c.has .complementary = false) (n : Nat) :
    (c.onMotionsN slice n ms).letter? = ms.letter? := by
  induction n with
  | zero => rfl
  | succ n ih => exact (letter?_onMotions_of_plain slice hs hc).trans ih

end Cap

/-- The letter does not depend on orientations. -/
theorem Duo.letter?_outline (ms : Motions) : ms.outline.letter? = ms.letter? := by
  rcases ms with ⟨_ | blue, _ | red⟩
  case some.some =>
    have h : ∀ d : Duo Motion, Letter.ofMotions? (d.map Motion.outline) = Letter.ofMotions? d :=
      fun _ => Letter.ofMotions?_congr rfl rfl rfl
    exact h ⟨blue, red⟩
  all_goals rfl

namespace Generation

open KineticAlphabet.Random

variable {c : Config} {start : Beat} {beats : List Beat}

/-- A joined beat carries the letter that its motions spell. -/
theorem Joined.letter_eq {mss : List Motions} {last : Duo Stance}
    (h : Joined start mss beats last) {i : Nat} {b : Beat} (hi : beats[i]? = some b) :
    b.letter = b.motions.letter?.map Letter.text := by
  obtain ⟨_, _, _, _, -, rfl, -⟩ := h.exists_assemble hi
  rfl

/-- Where the CAP type only turns and mirrors the grid, every slice spells what the first spells. -/
theorem Circled.letter_eq {first : Duo Stance} {part : List Beat}
    (h : Circled c start first part beats) (hs : c.cap.has .swapped = false)
    (hc : c.cap.has .complementary = false) {k j : Nat} (hk : k < c.slice.repeats)
    (hj : j < part.length) : ∃ b later, beats[j]? = some b ∧
      beats[k * part.length + j]? = some later ∧ later.letter = b.letter := by
  obtain ⟨last, hjoined, -⟩ := h.joined
  obtain ⟨b, later, hb, hlater, ho⟩ :=
    hjoined.outline_first (Nat.zero_lt_of_lt hk) hk hj
  refine ⟨b, later, hb, hlater, ?_⟩
  rw [hjoined.letter_eq hlater, hjoined.letter_eq hb, ← Duo.letter?_outline, ho,
    Duo.letter?_outline, Cap.letter?_onMotionsN c.slice hs hc]

/-- The beats of a circular sequence are a slice that was picked, joined to its repeats. -/
theorem exists_circled {σ : Type} {source : Source σ} {s : σ} {q : Sequence}
    (h : ((generate source c).run s).1 = .ok q) (hm : c.mode = .circular) :
    ∃ start first part beats, Circled c start first part beats ∧ part.length = c.sliceLength ∧
      ∀ i, q.beat? (i + 1) = beats[i]? := by
  obtain ⟨start, beats, ha, hs, hb, rfl⟩ := exists_built source h
  have hbeats : (finish c start beats).beats = beats := by rw [finish_beats, hb.renumber_eq ha hs]
  cases hb with
  | freely hm' => rw [hm] at hm'; cases hm'
  | @circled first part _ hf hc =>
    refine ⟨start, first, part, beats, hc, hc.length_eq, fun i => ?_⟩
    rw [Sequence.beat?, hbeats]

/-- What a CAP type makes of motions spells what it makes of their letter: it exchanges letters as
its components do, and where it only turns and mirrors the grid it keeps them. So in a circular
sequence of such a type all slices have the same letters. -/
theorem letters_follow_cap {σ : Type} (source : Source σ) (config : Config) (s : σ) :
    (∀ (c : Cap) (slice : Slice) (ms : Motions),
      (c.has .complementary = true → ms.Every (·.motionType ≠ .float)) →
        (c.onMotions slice ms).letter? = ms.letter?.map c.onLetter) ∧
    (∀ (c : Cap) (slice : Slice) (ms : Motions), c.has .swapped = false →
      c.has .complementary = false → (c.onMotions slice ms).letter? = ms.letter?) ∧
    ∀ q, ((generate source config).run s).1 = .ok q → config.mode = .circular →
      config.cap.has .swapped = false → config.cap.has .complementary = false →
      ∀ k < config.slice.repeats, ∀ i, 1 ≤ i → i ≤ config.sliceLength → ∃ b later,
        q.beat? i = some b ∧ q.beat? (k * config.sliceLength + i) = some later ∧
        later.letter = b.letter := by
  refine ⟨fun c slice ms => Cap.letter?_onMotions_of_floatless c slice,
    fun c slice ms => Cap.letter?_onMotions_of_plain slice, ?_⟩
  intro q h hm hs hc k hk i h1 hi
  obtain ⟨start, first, part, beats, hcircled, hlen, hbeat⟩ := exists_circled h hm
  obtain ⟨j, rfl⟩ := Nat.exists_eq_add_of_le' h1
  obtain ⟨b, later, hb, hlater, hletter⟩ := hcircled.letter_eq hs hc hk (hlen ▸ hi)
  refine ⟨b, later, (hbeat j).trans hb, ?_, hletter⟩
  rw [← Nat.add_assoc, hbeat, ← hlen, hlater]

/-- Two hands that part, the red one against its prop. -/
def parting : Motions :=
  ⟨some (.shift .pro .n .w .inward), some (.shift .anti .e .s .inward)⟩

/-- Two hands that part spell the other mixed letter when pro and anti are exchanged. The first seed
gives a sequence of two halves, the nineteenth beat of which has the letter of the third. -/
theorem letters_follow_cap_advanced :
    (Cap.strictComplementary.onMotions .halved parting).letter? = some .V ∧ ∃ q,
      ((generate ChaCha.source (Config.advanced.withCap .mirroredRotated .halved)).run
        (.ofSeed 0)).1 = .ok q ∧ ∃ b later,
        q.beat? 3 = some b ∧ q.beat? 19 = some later ∧ later.letter = b.letter := by
  have hc : (Config.advanced.withCap .mirroredRotated .halved).check = .ok () :=
    Config.check_eq_ok_iff.mpr (Config.admitted_advanced_halved .mirroredRotated)
  obtain ⟨q, hq⟩ := exists_sequence ChaCha.source hc rfl rfl (.ofSeed 0)
  obtain ⟨hletter, -, hgenerated⟩ := letters_follow_cap ChaCha.source
    (Config.advanced.withCap .mirroredRotated .halved) (.ofSeed 0)
  have hfloat : parting.Every (·.motionType ≠ .float) := by
    rintro (_ | _) _ ⟨⟩ <;> decide
  have hpart : parting.letter? = some .U := by decide
  refine ⟨?_, q, hq, ?_⟩
  · rw [hletter .strictComplementary .halved parting fun _ => hfloat, hpart]
    rfl
  · exact hgenerated q hq rfl rfl rfl 1 (by decide) 3 (by decide) (by decide)

end Generation

end KineticAlphabet
