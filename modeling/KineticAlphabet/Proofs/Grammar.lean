import KineticAlphabet.Spelling
/-!
The grammar of the letters. What two motions spell depends on their ways of travel, the position
groups before and after them and on which shifts are anti. Every pair that travels as its kinds ask,
from hands at an even distance, spells a letter, whose type tells the two ways of travel. A shift
that stops being anti can turn the letter into another one of the same row of the alphabet only.
-/
namespace KineticAlphabet

namespace Location

/-- The distance of the hands after both have moved. -/
theorem stepsTo_after (a b a' b' : Location) :
    a'.stepsTo b' = (a.stepsTo b + b.stepsTo b' + (8 - a.stepsTo a')) % 8 := by
  have := a.index_lt
  have := b.index_lt
  have := a'.index_lt
  have := b'.index_lt
  simp only [stepsTo]
  omega

theorem stepsTo_lt (a b : Location) : a.stepsTo b < 8 := Nat.mod_lt _ (by decide)

end Location

theorem PositionGroup.even_of_ofSteps? {d : Nat} {g : PositionGroup} (h : ofSteps? d = some g) :
    d % 2 = 0 := by
  unfold ofSteps? at h
  split at h
  case h_5 => cases h
  all_goals rfl

namespace Letter

def ofTravels? (ways : Duo Travel) (start stop : PositionGroup) (antis : Duo Bool)
    (sameWay changePlaces : Bool) : Option Letter :=
  match ways.blue, ways.red with
  | .shift, .shift => ofShifts? start stop antis sameWay changePlaces
  | .shift, .static => ofShift? start stop antis.blue
  | .static, .shift => ofShift? start stop antis.red
  | .shift, .dash => ofCrossShift? start stop antis.blue
  | .dash, .shift => ofCrossShift? start stop antis.red
  | .dash, .static | .static, .dash => ofDash? start stop
  | .dash, .dash => ofDashes? start stop
  | .static, .static => ofStatics? start stop

/-- Where motions travel well between position groups, their letter is that of their ways. -/
theorem ofMotions?_eq (ms : Duo Motion) : ofMotions? ms =
    if ms.all Motion.travelsWell then
      (PositionGroup.ofHands? (ms.map Motion.startLocation)).bind fun start =>
        (PositionGroup.ofHands? (ms.map Motion.endLocation)).bind fun stop =>
          ofTravels? (ms.map Motion.travel) start stop (ms.map Motion.isAnti)
            (ms.blue.handRotation = ms.red.handRotation)
            (ms.blue.endLocation = ms.red.startLocation &&
              ms.red.endLocation = ms.blue.startLocation)
    else none := by
  by_cases h : ms.all Motion.travelsWell
  · simp only [ofMotions?, h, if_true, Bool.not_true, Bool.false_eq_true, if_false]
    rfl
  · simp [ofMotions?, h]

def typeOfTravels (ways : Duo Travel) : LetterType :=
  match ways.blue, ways.red with
  | .shift, .shift => .type1
  | .shift, .static | .static, .shift => .type2
  | .shift, .dash | .dash, .shift => .type3
  | .dash, .static | .static, .dash => .type4
  | .dash, .dash => .type5
  | .static, .static => .type6

theorem letterType_of_ofShifts? {start stop : PositionGroup} {antis : Duo Bool}
    {sameWay changePlaces : Bool} {l : Letter}
    (h : ofShifts? start stop antis sameWay changePlaces = some l) : l.letterType = .type1 := by
  rcases antis with ⟨antiBlue, antiRed⟩
  cases start <;> cases stop <;> cases sameWay <;> cases changePlaces <;> cases antiBlue <;>
    cases antiRed <;> cases h <;> rfl

theorem letterType_of_ofShift? {start stop : PositionGroup} {anti : Bool} {l : Letter}
    (h : ofShift? start stop anti = some l) : l.letterType = .type2 := by
  cases start <;> cases stop <;> cases anti <;> cases h <;> rfl

theorem letterType_of_ofCrossShift? {start stop : PositionGroup} {anti : Bool} {l : Letter}
    (h : ofCrossShift? start stop anti = some l) : l.letterType = .type3 := by
  cases start <;> cases stop <;> cases anti <;> cases h <;> rfl

theorem letterType_of_ofDash? {start stop : PositionGroup} {l : Letter}
    (h : ofDash? start stop = some l) : l.letterType = .type4 := by
  cases start <;> cases stop <;> cases h <;> rfl

theorem letterType_of_ofDashes? {start stop : PositionGroup} {l : Letter}
    (h : ofDashes? start stop = some l) : l.letterType = .type5 := by
  cases start <;> cases stop <;> cases h <;> rfl

theorem letterType_of_ofStatics? {start stop : PositionGroup} {l : Letter}
    (h : ofStatics? start stop = some l) : l.letterType = .type6 := by
  cases start <;> cases stop <;> cases h <;> rfl

/-- Every letter stands in the table of its ways of travel. -/
theorem letterType_of_ofTravels? {ways : Duo Travel} {start stop : PositionGroup}
    {antis : Duo Bool} {sameWay changePlaces : Bool} {l : Letter}
    (h : ofTravels? ways start stop antis sameWay changePlaces = some l) :
    l.letterType = typeOfTravels ways := by
  rcases ways with ⟨_ | _ | _, _ | _ | _⟩
  · exact letterType_of_ofShifts? h
  · exact letterType_of_ofCrossShift? h
  · exact letterType_of_ofShift? h
  · exact letterType_of_ofCrossShift? h
  · exact letterType_of_ofDashes? h
  · exact letterType_of_ofDash? h
  · exact letterType_of_ofShift? h
  · exact letterType_of_ofDash? h
  · exact letterType_of_ofStatics? h

theorem exists_ofShifts?_gamma (antis : Duo Bool) (sameWay changePlaces : Bool) :
    ∃ l, ofShifts? .gamma .gamma antis sameWay changePlaces = some l := by
  cases sameWay <;> cases changePlaces <;> exact ⟨_, rfl⟩

/-- Ways of travel between hands at an even distance lead from one position group to another, and
spell a letter there. -/
theorem exists_ofTravels? {ways : Duo Travel} {d db dr : Nat} (hd : d < 8) (he : d % 2 = 0)
    (hb : ways.blue.covers db) (hr : ways.red.covers dr) :
    ∃ start stop, PositionGroup.ofSteps? d = some start ∧
      PositionGroup.ofSteps? ((d + dr + (8 - db)) % 8) = some stop ∧
      ∀ antis sameWay changePlaces,
        ∃ l, ofTravels? ways start stop antis sameWay changePlaces = some l := by
  have hd' : d = 0 ∨ d = 2 ∨ d = 4 ∨ d = 6 := by omega
  rcases ways with ⟨blue, red⟩
  cases blue <;> cases red <;>
    simp only [Travel.covers, Bool.or_eq_true, decide_eq_true_eq] at hb hr <;>
    rcases hd' with rfl | rfl | rfl | rfl <;> rcases hb with rfl | rfl <;>
    rcases hr with rfl | rfl <;> refine ⟨_, _, rfl, rfl, ?_⟩ <;>
    first
      | exact fun _ _ _ => ⟨_, rfl⟩
      | exact exists_ofShifts?_gamma

/-- Motions that travel well from hands at an even distance spell a letter. -/
theorem exists_ofMotions? {ms : Duo Motion} (hw : ms.all Motion.travelsWell = true)
    (he : ms.blue.startLocation.stepsTo ms.red.startLocation % 2 = 0) :
    ∃ l, ofMotions? ms = some l := by
  have hw' : ms.blue.travelsWell = true ∧ ms.red.travelsWell = true := by
    simpa [Duo.all] using hw
  obtain ⟨start, stop, hstart, hstop, hl⟩ :=
    @exists_ofTravels? (ms.map Motion.travel) _ _ _ (Location.stepsTo_lt _ _) he hw'.1 hw'.2
  rw [← Location.stepsTo_after] at hstop
  rw [ofMotions?_eq, if_pos hw]
  simp only [PositionGroup.ofHands?, Duo.map] at hstart hstop ⊢
  rw [hstart, hstop]
  exact hl _ _ _

/-- Motions that spell a letter travel well, and their hands are at an even distance. -/
theorem travelsWell_of_ofMotions? {ms : Duo Motion} {l : Letter} (h : ofMotions? ms = some l) :
    ms.all Motion.travelsWell = true ∧
      ms.blue.startLocation.stepsTo ms.red.startLocation % 2 = 0 := by
  rw [ofMotions?_eq] at h
  split at h
  case isFalse => cases h
  case isTrue hw =>
    obtain ⟨start, hstart, -⟩ := Option.bind_eq_some_iff.mp h
    exact ⟨hw, PositionGroup.even_of_ofSteps? hstart⟩

theorem letterType_of_ofMotions? {ms : Duo Motion} {l : Letter} (h : ofMotions? ms = some l) :
    l.letterType = typeOfTravels (ms.map Motion.travel) := by
  rw [ofMotions?_eq] at h
  split at h
  · obtain ⟨start, -, h⟩ := Option.bind_eq_some_iff.mp h
    obtain ⟨stop, -, h⟩ := Option.bind_eq_some_iff.mp h
    exact letterType_of_ofTravels? h
  · cases h

/-- The other letters that a letter can turn into when anti shifts become floats. -/
def softened : Letter → List Letter
  | B => [A, C] | C => [A]
  | E => [D, F] | F => [D]
  | H => [G, I] | I => [G]
  | K => [J, L] | L => [J]
  | N => [M, O] | O => [M]
  | Q => [P, R] | R => [P]
  | T => [S, U, V] | U => [S] | V => [S]
  | X => [W] | Z => [Y] | delta => [sigma] | omega => [theta]
  | crossX => [crossW] | crossZ => [crossY]
  | crossDelta => [crossSigma] | crossOmega => [crossTheta]
  | _ => []

/-- A letter, or one that it can turn into. -/
def MaySoften (l l' : Letter) : Prop := l' = l ∨ l' ∈ l.softened

instance (l l' : Letter) : Decidable (MaySoften l l') :=
  inferInstanceAs (Decidable (l' = l ∨ l' ∈ l.softened))

theorem maySoften_ofFamily {p a m : Letter} (hm : MaySoften a m) (hp : MaySoften a p)
    (hmp : MaySoften m p) {antis antis' : Duo Bool} (ha : ∀ x, antis'.get x → antis.get x) :
    MaySoften (ofFamily p a m antis) (ofFamily p a m antis') := by
  have hb := ha .blue
  have hr := ha .red
  rcases antis with ⟨_ | _, _ | _⟩ <;> rcases antis' with ⟨_ | _, _ | _⟩ <;>
    simp_all [Duo.get, ofFamily, MaySoften]

theorem maySoften_of_ofShifts? {start stop : PositionGroup} {antis antis' : Duo Bool}
    {sameWay changePlaces : Bool} {l l' : Letter} (ha : ∀ x, antis'.get x → antis.get x)
    (h : ofShifts? start stop antis sameWay changePlaces = some l)
    (h' : ofShifts? start stop antis' sameWay changePlaces = some l') : MaySoften l l' := by
  cases start <;> cases stop
  case gamma.gamma =>
    cases sameWay <;> cases changePlaces
    case false.false =>
      -- where the hands part, the mixed letters tell which shift is anti
      have hb := ha .blue
      have hr := ha .red
      rcases antis with ⟨_ | _, _ | _⟩ <;> rcases antis' with ⟨_ | _, _ | _⟩ <;> cases h <;>
        cases h' <;> first | decide | exact absurd (hb rfl) (by decide) |
          exact absurd (hr rfl) (by decide)
    all_goals
      cases h
      cases h'
      exact maySoften_ofFamily (by decide) (by decide) (by decide) ha
  all_goals
    cases h <;> cases h' <;>
      exact maySoften_ofFamily (by decide) (by decide) (by decide) ha

theorem maySoften_of_ofShift? {start stop : PositionGroup} {anti anti' : Bool} {l l' : Letter}
    (ha : anti' → anti) (h : ofShift? start stop anti = some l)
    (h' : ofShift? start stop anti' = some l') : MaySoften l l' := by
  cases start <;> cases stop <;> cases anti <;> cases anti' <;> cases h <;> cases h' <;>
    first | decide | exact absurd (ha rfl) (by decide)

theorem maySoften_of_ofCrossShift? {start stop : PositionGroup} {anti anti' : Bool}
    {l l' : Letter} (ha : anti' → anti) (h : ofCrossShift? start stop anti = some l)
    (h' : ofCrossShift? start stop anti' = some l') : MaySoften l l' := by
  cases start <;> cases stop <;> cases anti <;> cases anti' <;> cases h <;> cases h' <;>
    first | decide | exact absurd (ha rfl) (by decide)

/-- Where a shift that was anti no longer is, two ways of travel spell what the letter before can
turn into. -/
theorem maySoften_of_ofTravels? {ways : Duo Travel} {start stop : PositionGroup}
    {antis antis' : Duo Bool} {sameWay changePlaces : Bool} {l l' : Letter}
    (ha : ∀ x, antis'.get x → antis.get x)
    (h : ofTravels? ways start stop antis sameWay changePlaces = some l)
    (h' : ofTravels? ways start stop antis' sameWay changePlaces = some l') :
    MaySoften l l' := by
  have same : some l = some l' → MaySoften l l' := fun e => .inl (Option.some.inj e).symm
  rcases ways with ⟨_ | _ | _, _ | _ | _⟩
  · exact maySoften_of_ofShifts? ha h h'
  · exact maySoften_of_ofCrossShift? (ha .blue) h h'
  · exact maySoften_of_ofShift? (ha .blue) h h'
  · exact maySoften_of_ofCrossShift? (ha .red) h h'
  · exact same (h.symm.trans h')
  · exact same (h.symm.trans h')
  · exact maySoften_of_ofShift? (ha .red) h h'
  · exact same (h.symm.trans h')
  · exact same (h.symm.trans h')

/-- The letter depends on the types of the motions and on where the hands go only. -/
theorem ofMotions?_congr {ms ms' : Duo Motion}
    (ht : ms'.map Motion.motionType = ms.map Motion.motionType)
    (hs : ms'.map Motion.startLocation = ms.map Motion.startLocation)
    (he : ms'.map Motion.endLocation = ms.map Motion.endLocation) :
    ofMotions? ms' = ofMotions? ms := by
  rcases ms with ⟨⟨⟩, ⟨⟩⟩
  rcases ms' with ⟨⟨⟩, ⟨⟩⟩
  simp only [Duo.map, Duo.mk.injEq] at ht hs he
  obtain ⟨rfl, rfl⟩ := ht
  obtain ⟨rfl, rfl⟩ := hs
  obtain ⟨rfl, rfl⟩ := he
  rfl

/-- Motions that go the same ways, with no anti where there was none, spell what the letter before
can turn into. -/
theorem maySoften_of_ofMotions? {ms ms' : Duo Motion} {l l' : Letter}
    (ht : ms'.map Motion.travel = ms.map Motion.travel)
    (hs : ms'.map Motion.startLocation = ms.map Motion.startLocation)
    (he : ms'.map Motion.endLocation = ms.map Motion.endLocation)
    (ha : ∀ x, (ms'.get x).isAnti → (ms.get x).isAnti)
    (h : ofMotions? ms = some l) (h' : ofMotions? ms' = some l') : MaySoften l l' := by
  have hsb : ms'.blue.startLocation = ms.blue.startLocation := congrArg Duo.blue hs
  have hsr : ms'.red.startLocation = ms.red.startLocation := congrArg Duo.red hs
  have heb : ms'.blue.endLocation = ms.blue.endLocation := congrArg Duo.blue he
  have her : ms'.red.endLocation = ms.red.endLocation := congrArg Duo.red he
  rw [ofMotions?_eq] at h h'
  split at h
  case isFalse => cases h
  case isTrue =>
  split at h'
  case isFalse => cases h'
  case isTrue =>
  obtain ⟨start, hstart, h⟩ := Option.bind_eq_some_iff.mp h
  obtain ⟨stop, hstop, h⟩ := Option.bind_eq_some_iff.mp h
  rw [hs, he, ht, hstart, Option.bind_some, hstop, Option.bind_some] at h'
  simp only [Motion.handRotation, hsb, hsr, heb, her] at h'
  refine maySoften_of_ofTravels? ?_ h h'
  intro x
  simpa using ha x

end Letter

end KineticAlphabet
