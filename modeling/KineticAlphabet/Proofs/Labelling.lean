import KineticAlphabet.Proofs.Difficulty
import KineticAlphabet.Proofs.Exhaustion
/-!
The labels of generated beats. Letter, positions and reversals are stored with a beat when it is
assembled, and they are always those that follow from its motions and from the beats that stand
before it in the end. Beats of a slice are assembled twice, once while the slice is picked and again
when it is joined to its repeats, so it is the second history that counts. None of the labels is
missing, because motions that are made as their types ask spell a letter wherever the hands are.
-/
namespace KineticAlphabet

theorem PositionGroup.exists_ofSteps? {d : Nat} (hd : d < 8) (he : d % 2 = 0) :
    ∃ g, ofSteps? d = some g := by
  have hd' : d = 0 ∨ d = 2 ∨ d = 4 ∨ d = 6 := by omega
  rcases hd' with rfl | rfl | rfl | rfl <;> exact ⟨_, rfl⟩

/-- Hands on one grid have a position. -/
theorem Position.exists_label? {g : Grid} {hands : Duo Location} (h : ∀ a, (hands.get a).grid = g) :
    ∃ label, label? hands = some label := by
  have heven := Location.stepsTo_even ((h .blue).trans (h .red).symm)
  obtain ⟨group, hg⟩ := PositionGroup.exists_ofSteps? (Location.stepsTo_lt _ _) heven
  exact ⟨_, Option.map_eq_some_iff.mpr ⟨group, hg, rfl⟩⟩

/-- Motions on one grid that are made as their types ask spell a letter. -/
theorem Letter.exists_of_formed {g : Grid} {ms : Duo Motion} (h : ∀ a, (ms.get a).Formed g) :
    ∃ l, ofMotions? ms = some l := by
  have hwell : ms.all Motion.travelsWell = true := by
    rw [Duo.all, Bool.and_eq_true]
    exact ⟨(Motion.travelsWell_iff _).mpr (h .blue).travels,
      (Motion.travelsWell_iff _).mpr (h .red).travels⟩
  exact exists_ofMotions? hwell
    (Location.stepsTo_even ((h .blue).startGrid.trans (h .red).startGrid.symm))

/-- A beat with the labels that follow from its motions and the beats before it: the letter that
they spell, the positions in which they start and end, and which actors reverse. -/
structure Beat.Labelled (history : List Beat) (b : Beat) : Prop where
  letter : ∃ ms l, b.motions = Duo.map some ms ∧ Letter.ofMotions? ms = some l ∧
    b.letter = some l.text
  startPosition : ∃ hands label, b.motions.startHands? = some hands ∧
    Position.label? hands = some label ∧ b.startPosition = some label
  endPosition : ∃ hands label, b.motions.endHands? = some hands ∧
    Position.label? hands = some label ∧ b.endPosition = some label
  reversals : b.reversals = reversalFlags b.toPictograph.motions history

/-- A sequence all of whose beats are labelled after its start position and the beats before. -/
def Sequence.Labelled (q : Sequence) : Prop := ∃ start, q.startPosition = some start ∧
  ∀ (i : Nat) (b : Beat), q.beats[i]? = some b → b.Labelled (start :: q.beats.take i)

theorem exists_letters {bs : List Beat} (h : ∀ b ∈ bs, ∃ l : Letter, b.letter = some l.text) :
    ∃ letters : List Letter, bs.map Beat.letter = letters.map fun l => some l.text := by
  induction bs with
  | nil => exact ⟨[], rfl⟩
  | cons b bs ih =>
    rw [List.forall_mem_cons] at h
    obtain ⟨l, hl⟩ := h.1
    obtain ⟨letters, hletters⟩ := ih h.2
    exact ⟨l :: letters, by rw [List.map_cons, List.map_cons, hl, hletters]⟩

/-- A word is made of the letters of all beats. -/
theorem Sequence.word_of_letters {q : Sequence} {letters : List Letter}
    (h : q.beats.map Beat.letter = letters.map fun l => some l.text) :
    q.word = String.join (letters.map Letter.text) := by
  refine congrArg String.join ?_
  calc q.beats.filterMap Beat.letter
    _ = (q.beats.map Beat.letter).filterMap id := by rw [List.filterMap_map]; rfl
    _ = letters.map Letter.text := by
      rw [h, List.filterMap_map]
      exact congrFun List.filterMap_eq_map letters

/-- Every beat of a labelled sequence has a letter. -/
theorem Sequence.Labelled.exists_letter {q : Sequence} (h : q.Labelled) :
    ∀ b ∈ q.beats, ∃ l : Letter, b.letter = some l.text := by
  obtain ⟨start, -, hbeats⟩ := h
  intro b hb
  obtain ⟨i, hi⟩ := List.mem_iff_getElem?.mp hb
  obtain ⟨ms, l, -, -, hl⟩ := (hbeats i b hi).letter
  exact ⟨l, hl⟩

/-- The word of a labelled sequence is made of a letter of each beat. -/
theorem Sequence.Labelled.exists_word {q : Sequence} (h : q.Labelled) : ∃ letters : List Letter,
    q.beats.map Beat.letter = letters.map (fun l => some l.text) ∧
      q.word = String.join (letters.map Letter.text) := by
  obtain ⟨letters, hl⟩ := exists_letters h.exists_letter
  exact ⟨letters, hl, word_of_letters hl⟩

namespace Generation

open KineticAlphabet.Random

variable {σ : Type} {c : Config} {start : Beat} {beats : List Beat} {g : Grid}

/-- A beat is labelled when it is assembled. -/
theorem labelled_assemble (n : Nat) {ms : Motions} (state : Duo Stance) (history : List Beat)
    {joined : Duo Motion} (hj : (assemble n ms state history).motions = joined.map some)
    (hf : ∀ a, (joined.get a).Formed g) : (assemble n ms state history).Labelled history := by
  obtain ⟨l, hl⟩ := Letter.exists_of_formed hf
  have hletter : (assemble n ms state history).letter =
      ((assemble n ms state history).motions.both?.bind Letter.ofMotions?).map Letter.text := rfl
  have hstart : (assemble n ms state history).startPosition =
      (assemble n ms state history).motions.startHands?.bind Position.label? := rfl
  have hend : (assemble n ms state history).endPosition =
      (assemble n ms state history).motions.endHands?.bind Position.label? := rfl
  have hboth : (joined.map some).both? = some joined := rfl
  have hstarts : ∀ a, ((joined.map Motion.startLocation).get a).grid = g := fun a => by
    rw [Duo.get_map]
    exact (hf a).startGrid
  have hends : ∀ a, ((joined.map Motion.endLocation).get a).grid = g := fun a => by
    rw [Duo.get_map]
    exact (hf a).endGrid
  obtain ⟨startLabel, hs⟩ := Position.exists_label? hstarts
  obtain ⟨endLabel, he⟩ := Position.exists_label? hends
  -- every label is read off the joined motions, not off those that were drawn
  rw [hj] at hletter hstart hend
  constructor
  · refine ⟨joined, l, hj, hl, ?_⟩
    rw [hletter, hboth, Option.bind_some, hl, Option.map_some]
  · rw [hj]
    exact ⟨_, startLabel, rfl, hs, hstart.trans hs⟩
  · rw [hj]
    exact ⟨_, endLabel, rfl, he, hend.trans he⟩
  · rfl

/-- Joined beats are labelled after the beats that they are joined to. -/
theorem Joined.labelled {mss : List Motions} {last : Duo Stance} (h : Joined start mss beats last)
    (hf : ∀ b ∈ beats, b.motions.Every (Motion.Formed g)) {i : Nat} {b : Beat}
    (hi : beats[i]? = some b) : b.Labelled (start :: beats.take i) := by
  obtain ⟨mss', before, ms, after, -, rfl, hc⟩ := h.exists_assemble hi
  obtain ⟨joined, hj, -⟩ := hc.motions
  have hformed : ∀ a, (joined.get a).Formed g := fun a =>
    hf _ (List.mem_of_getElem? hi) a _ (by rw [hj, Duo.get_map])
  exact labelled_assemble _ _ _ hj hformed

/-- The beats of a report hold motions as they should be. -/
theorem Reached.every_suits (h : Reached c start beats) (hc : c.Admitted) :
    ∀ b ∈ beats, b.motions.Every (Motion.Suits c) := by
  cases h with
  | picked hp => exact hp.every_suits hc
  | repeated hp hj n =>
    intro b hb
    exact hj.every_repeated (Motion.isKept_suits c) (hp.every_suits hc) b (List.mem_of_mem_take hb)

theorem Built.labelled_finish (h : Built c start beats) (hc : c.Admitted) (hs : Started c start) :
    (finish c start beats).Labelled := by
  obtain ⟨mss, first, last, hj, -⟩ := h.exists_joined hc hs
  refine ⟨start, by rw [finish_startPosition, hs.number_eq], fun i b hi => ?_⟩
  rw [finish_beats, hj.renumber_eq] at hi ⊢
  exact hj.labelled (fun b hb a m hm => (h.every_suits hc b hb a m hm).1) hi

theorem Reached.labelled_ofBeats (h : Reached c start beats) (hc : c.Admitted)
    (hs : Started c start) (name : String) :
    (Sequence.ofBeats name (some start) beats).Labelled := by
  obtain ⟨mss, last, hj⟩ := h.exists_joined hs
  rw [h.ofBeats_eq hs]
  exact ⟨start, rfl, fun i b hi =>
    hj.labelled (fun b hb a m hm => (h.every_suits hc b hb a m hm).1) hi⟩

theorem finish_name (c : Config) (start : Beat) (beats : List Beat) :
    (finish c start beats).name = (finish c start beats).word := by
  unfold finish
  cases c.mode <;> rfl

/-- Whatever is drawn, all beats of a sequence that is generated, and of a report that none was, are
labelled as they stand there. The name of a sequence is made of the letters of its beats. -/
theorem generate_labelled (source : Source σ) (c : Config) (s : σ) :
    (∀ q, ((generate source c).run s).1 = .ok q → q.Labelled ∧ q.name = q.word ∧
      ∃ letters : List Letter, q.beats.map Beat.letter = letters.map (fun l => some l.text) ∧
        q.word = String.join (letters.map Letter.text)) ∧
    ∀ beat made reached, ((generate source c).run s).1 = .error (.exhausted beat made reached) →
      reached.Labelled := by
  constructor
  · intro q h
    obtain ⟨start, beats, hc, hs, hb, rfl⟩ := exists_built source h
    have hl := hb.labelled_finish hc hs
    exact ⟨hl, finish_name c start beats, hl.exists_word⟩
  · intro beat made reached h
    obtain ⟨start, s', hc, -, hs, ⟨beats, rfl, hb, -, -⟩, -⟩ := exists_missed h
    exact hb.labelled_ofBeats hc hs "partial"

/-- The first seed gives a long labelled sequence with half turns and floats, and the script of two
failing restarts a report of three labelled beats. -/
theorem generate_labelled_advanced : (∃ q,
    ((generate ChaCha.source Config.advanced).run (.ofSeed 0)).1 = .ok q ∧ q.Labelled) ∧
    ∃ reached, ((generate script twoRestarts).run [0, 0, 1, 0, 0, 0]).1 =
      .error (.exhausted 4 4 reached) ∧ reached.Labelled := by
  have hc : Config.advanced.check = .ok () := Config.check_eq_ok_iff.mpr Config.admitted_advanced
  obtain ⟨q, hq⟩ := exists_sequence ChaCha.source hc rfl rfl (.ofSeed 0)
  obtain ⟨reached, hr⟩ := exists_of_missed? missed?_twoRestarts
  exact ⟨⟨q, hq, ((generate_labelled _ _ _).1 q hq).1⟩, reached, hr,
    (generate_labelled _ _ _).2 4 4 reached hr⟩

end Generation

end KineticAlphabet
