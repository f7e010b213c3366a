import KineticAlphabet.Proofs.Difficulty
/-!
The grammar against the tables of the alphabet. Two motions spell a letter just where each goes as
far as its type asks and the hands start at an even distance. The letter stands in the table of the
type that its two ways of travel make, whoever of the actors goes which way, and nothing but the
types and the locations of the motions counts.
-/
namespace KineticAlphabet

def LetterType.ways : LetterType → Duo Travel
  | type1 => ⟨.shift, .shift⟩
  | type2 => ⟨.shift, .static⟩
  | type3 => ⟨.shift, .dash⟩
  | type4 => ⟨.dash, .static⟩
  | type5 => ⟨.dash, .dash⟩
  | type6 => ⟨.static, .static⟩

namespace Letter

/-- Every two ways of travel are those of one type, in one order of the actors or the other. -/
theorem typeOfTravels_eq_iff (ways : Duo Travel) (t : LetterType) :
    typeOfTravels ways = t ↔ ways = t.ways ∨ ways = t.ways.swap := by
  rcases ways with ⟨_ | _ | _, _ | _ | _⟩ <;> cases t <;> decide

/-- Every letter stands in the table of the type that its text counts to. -/
theorem mem_ofType_ofText (l : Letter) : l ∈ ofType (.ofText l.text) := by
  rw [mem_ofType_iff, LetterType.ofText_text]

theorem all_travelsWell_iff (ms : Duo Motion) : ms.all Motion.travelsWell = true ↔
    ∀ a, (ms.get a).startLocation.stepsTo (ms.get a).endLocation ∈
      (ms.get a).motionType.distances := by
  rw [Actor.forall_iff, Duo.get_blue, Duo.get_red, ← Motion.travelsWell_iff,
    ← Motion.travelsWell_iff, ← Bool.and_eq_true]
  rfl

/-- Two motions spell a letter just where each goes as far as its type asks and the hands start at
an even distance. That letter is found in the alphabet, in the table of its type, and the type is
the one that has the two ways of travel in either order of the actors. Other motions of the same
types between the same locations spell the same. -/
theorem ofMotions?_classifies (ms : Duo Motion) :
    ((∃ l, ofMotions? ms = some l) ↔
      (∀ a, (ms.get a).startLocation.stepsTo (ms.get a).endLocation ∈
        (ms.get a).motionType.distances) ∧
      ms.blue.startLocation.stepsTo ms.red.startLocation % 2 = 0) ∧
    (∀ l, ofMotions? ms = some l →
      ofText? l.text = some l ∧ l ∈ ofType (.ofText l.text) ∧
      ∀ t, LetterType.ofText l.text = t ↔
        ms.map Motion.travel = t.ways ∨ ms.map Motion.travel = t.ways.swap) ∧
    ∀ ms' : Duo Motion, (∀ a, (ms'.get a).motionType = (ms.get a).motionType ∧
      (ms'.get a).startLocation = (ms.get a).startLocation ∧
      (ms'.get a).endLocation = (ms.get a).endLocation) → ofMotions? ms' = ofMotions? ms := by
  refine ⟨?_, fun l h => ⟨ofText?_text l, mem_ofType_ofText l, fun t => ?_⟩, fun ms' h => ?_⟩
  · rw [← all_travelsWell_iff]
    constructor
    · rintro ⟨l, h⟩
      exact travelsWell_of_ofMotions? h
    · rintro ⟨hw, he⟩
      exact exists_ofMotions? hw he
  · rw [LetterType.ofText_text, letterType_of_ofMotions? h, typeOfTravels_eq_iff]
  · obtain ⟨⟨htb, hsb, heb⟩, htr, hsr, her⟩ := Actor.forall_iff.mp h
    exact ofMotions?_congr (Duo.ext htb htr) (Duo.ext hsb hsr) (Duo.ext heb her)

/-- Blue goes a quarter round against its prop while red crosses. -/
def crossing : Duo Motion := ⟨.shift .anti .n .e .inward, .dashFrom .s .inward⟩

/-- They spell a letter of the third type, as they do with other turns. -/
theorem ofMotions?_classifies_crossing :
    ofMotions? crossing = some .crossDelta ∧
    LetterType.ofText Letter.crossDelta.text = .type3 ∧
    ofMotions? (crossing.map (·.withTurns (.half 3))) = ofMotions? crossing := by
  have hspells : ofMotions? crossing = some .crossDelta := rfl
  obtain ⟨-, hfound, hsame⟩ := ofMotions?_classifies crossing
  obtain ⟨-, -, htype⟩ := hfound .crossDelta hspells
  refine ⟨hspells, (htype .type3).mpr (.inl rfl), hsame _ fun a => ?_⟩
  cases a <;> exact ⟨rfl, rfl, rfl⟩

end Letter

end KineticAlphabet
