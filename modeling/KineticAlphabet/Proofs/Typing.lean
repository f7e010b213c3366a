import KineticAlphabet.Proofs.Exclusion
import KineticAlphabet.Proofs.Prolonging
/-!
Letter types. In freeform mode a pick looks at the type of the letter that a pictograph of the
catalog spells, and the beat stores the letter that the dressed motions spell. The two letters can
differ, but not their types. Dressing changes neither the way a hand travels nor where it goes; ways
of travel that spell a letter between two position groups spell one there whichever shifts are anti;
and the two ways alone tell the type.
-/
namespace KineticAlphabet

namespace Letter

variable {ms ms' : Duo Motion} {l : Letter}

/-- Motions that travel between the same points spell a letter of the same type, whatever kinds of
shift they are. -/
theorem exists_ofMotions?_letterType (ht : ms'.map Motion.travel = ms.map Motion.travel)
    (hs : ms'.map Motion.startLocation = ms.map Motion.startLocation)
    (he : ms'.map Motion.endLocation = ms.map Motion.endLocation) (h : ofMotions? ms = some l) :
    ∃ l', ofMotions? ms' = some l' ∧ l'.letterType = l.letterType := by
  obtain ⟨hw, heven⟩ := travelsWell_of_ofMotions? h
  have htb : ms'.blue.travel = ms.blue.travel := congrArg Duo.blue ht
  have htr : ms'.red.travel = ms.red.travel := congrArg Duo.red ht
  have hsb : ms'.blue.startLocation = ms.blue.startLocation := congrArg Duo.blue hs
  have hsr : ms'.red.startLocation = ms.red.startLocation := congrArg Duo.red hs
  have heb : ms'.blue.endLocation = ms.blue.endLocation := congrArg Duo.blue he
  have her : ms'.red.endLocation = ms.red.endLocation := congrArg Duo.red he
  have hw' : ms'.all Motion.travelsWell = true := by
    simpa only [Duo.all, Motion.travelsWell, htb, htr, hsb, hsr, heb, her] using hw
  have heven' : ms'.blue.startLocation.stepsTo ms'.red.startLocation % 2 = 0 := by
    rw [hsb, hsr]
    exact heven
  obtain ⟨l', hl'⟩ := exists_ofMotions? hw' heven'
  refine ⟨l', hl', ?_⟩
  rw [letterType_of_ofMotions? hl', letterType_of_ofMotions? h, ht]

end Letter

namespace Generation

open KineticAlphabet.Random

variable {c : Config} {start b : Beat} {beats : List Beat} {locks locks' : Locks}
  {goal : Option (Duo Location)}

/-- However motions that spell a letter are dressed, they spell one of the same type. -/
theorem exists_letter_of_dressed {plain dressed : Duo Motion} {l : Letter}
    (hd : ∀ a, Dressed c (locks.get a) (plain.get a) (dressed.get a))
    (h : Letter.ofMotions? plain = some l) :
    ∃ l', Letter.ofMotions? dressed = some l' ∧ l'.letterType = l.letterType :=
  Letter.exists_ofMotions?_letterType (Duo.ext (hd .blue).travel (hd .red).travel)
    (Duo.ext (hd .blue).startLocation (hd .red).startLocation)
    (Duo.ext (hd .blue).endLocation (hd .red).endLocation) h

/-- A beat with a letter of the alphabet that counts to a type of the configuration. -/
def Typed (c : Config) (b : Beat) : Prop :=
  ∃ l : Letter, b.letter = some l.text ∧ LetterType.ofText l.text ∈ c.letterTypes

theorem Step.typed (h : Step c start goal beats locks b locks') (hm : c.mode = .freeform) :
    Typed c b := by
  cases h with
  | intro hs hd hp =>
    cases hd with
    | @intro plain dressed l hc hd =>
      obtain ⟨l', hl', ht⟩ := exists_letter_of_dressed hd hc.spells
      refine ⟨l', ?_, ?_⟩
      · rw [assemble_letter, hl', Option.map_some]
      · rw [LetterType.ofText_text, ht]
        exact hc.typed hm

theorem Picked.typed (h : Picked c start beats locks) (hm : c.mode = .freeform) :
    ∀ b ∈ beats, Typed c b :=
  h.forall_mem fun _ hb => hb.typed hm

/-- In freeform mode every beat of a sequence or of a report has a letter of the asked types. -/
theorem generate_typed {σ : Type} (source : Source σ) (hm : c.mode = .freeform) (s : σ) :
    (∀ q, ((generate source c).run s).1 = .ok q → ∀ b ∈ q.beats, Typed c b) ∧
    ∀ beat made reached, ((generate source c).run s).1 = .error (.exhausted beat made reached) →
      ∀ b ∈ reached.beats, Typed c b := by
  constructor
  · intro q h
    obtain ⟨start, locks, -, hp⟩ := (exists_picked_of_freeform hm).1 q h
    exact hp.typed hm
  · intro beat made reached h
    obtain ⟨start, locks, -, hp⟩ := (exists_picked_of_freeform hm).2 beat made reached h
    exact hp.typed hm

/-- Nothing but a shift beside a static, with half turns and floats. -/
def singleShifts : Config := { Config.advanced with letterTypes := [.type2] }

/-- The first seed gives a long sequence of such beats. Where a search stops after a G, that letter
counts to one of the types too. -/
theorem generate_typed_singleShifts :
    (∃ q, ((generate ChaCha.source singleShifts).run (.ofSeed 0)).1 = .ok q ∧ q.length = 32 ∧
      ∀ b ∈ q.beats, Typed singleShifts b) ∧
    ∃ reached, ((generate script oneAttempt).run [0, 0, 0, 7]).1 =
      .error (.exhausted 2 2 reached) ∧ ∀ b ∈ reached.beats, Typed oneAttempt b := by
  have hc : singleShifts.check = .ok () :=
    Config.check_eq_ok_iff.mpr { Config.admitted_advanced with types := nofun }
  obtain ⟨q, hq⟩ := exists_sequence ChaCha.source hc rfl rfl (.ofSeed 0)
  obtain ⟨reached, hr⟩ := exists_of_missed? missed?_oneAttempt
  exact ⟨⟨q, hq, length_eq_of_generate ChaCha.source hq,
    (generate_typed ChaCha.source rfl _).1 q hq⟩,
    reached, hr, (generate_typed script rfl _).2 2 2 reached hr⟩

end Generation

end KineticAlphabet
