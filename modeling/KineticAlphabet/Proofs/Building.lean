import KineticAlphabet.Proofs.Admission
import KineticAlphabet.Proofs.Picking
/-!
What a generation builds. From a start position on the grid, freeform generation picks all its
beats, and circular generation picks a slice that ends at the image of the start position and joins
it to its repeats. Whatever is drawn, either of them builds its beats or reports how far it came,
and the beats that it builds pass the validity check.
-/
namespace KineticAlphabet.Generation

open KineticAlphabet.Random

variable {σ : Type} (source : Source σ) {c : Config} {start : Beat} {first : Duo Stance}

def inwardState (hands : Duo Location) : Duo Stance := hands.map fun l => ⟨l, .inward⟩

/-- A start position as it is drawn: somewhere on the grid, with both props pointing in. -/
inductive Started (c : Config) : Beat → Prop
  | intro {hands : Duo Location} (h : ∀ a, (hands.get a).grid = c.grid) :
      Started c (.ofStances (inwardState hands) (Position.label? hands))

theorem drawStart_spec : Yields (drawStart source c) (Started c) := by
  have hp : ∀ k, (c.grid.point k).grid = c.grid := by
    cases c.grid <;> decide
  refine .bind .any fun i _ => .bind .any fun j _ => .pure ?_
  refine @Started.intro c ⟨c.grid.point i, c.grid.point j⟩ ?_
  intro a
  cases a <;> exact hp _

namespace Started

/-- In a start position nothing moves. -/
theorem exists_carries (h : Started c start) : ∃ hands : Duo Location,
    (∀ a, (hands.get a).grid = c.grid) ∧ start.number = 0 ∧
      start.Carries (inwardState hands) (inwardState hands) := by
  cases h with
  | @intro hands h =>
    refine ⟨hands, h, rfl, rfl, ⟨.staticAt hands.blue .inward, .staticAt hands.red .inward⟩, rfl,
      ?_, rfl, rfl⟩
    intro a
    cases a <;> exact Motion.consistent_make _ _ _ _ _ _

theorem exists_endState? (h : Started c start) : ∃ first, start.endState? = some first := by
  obtain ⟨hands, -, -, hc⟩ := h.exists_carries
  exact ⟨_, hc.endState?⟩

end Started

/-- A circular sequence as it is built: a slice that was picked and ends at the image of the start
position, joined to its repeats, none of whose letters is excluded. -/
structure Circled (c : Config) (start : Beat) (first : Duo Stance) (part beats : List Beat) :
    Prop where
  picked : ∃ locks, Picked c start part locks
  length_eq : part.length = c.sliceLength
  reaches : (lastState? start part).map Duo.locations =
    some (c.cap.onHands c.slice first.locations)
  joined : ∃ last, Joined start (repeated c part) beats last ∧ last.locations = first.locations
  allowed : ∀ b ∈ beats, isExcluded c b.letter = false

/-- Why a slice made no sequence: picking it got stuck, or joined to its repeats it spells an
excluded letter. -/
inductive Failed (c : Config) (start : Beat) (first : Duo Stance) : Prop
  | stuck {part : List Beat} {locks : Locks} {goal? : Option (Duo Location)}
      (hp : Picked c start part locks)
      (hg : goal? ∈ [none, some (c.cap.onHands c.slice first.locations)])
      (h : Stuck c start goal? part locks)
  | excluded {part all : List Beat} {last : Duo Stance} {b : Beat}
      (hj : Joined start (repeated c part) all last) (hb : b ∈ all)
      (h : isExcluded c b.letter = true)

/-- A whole slice is judged by the first excluded letter among its repeats, if there is one. -/
theorem judge_eq {part all : List Beat} (hl : ¬ part.length < c.sliceLength)
    (hall : extend c start part = .ok all) : judge c start part =
      .ok ((all.findIdx? fun b => isExcluded c b.letter).elim (.inl all)
        fun i => .inr ⟨i + 1, all.take i⟩) := by
  rw [judge, if_neg hl, hall]
  simp only [bind, Except.bind]
  cases all.findIdx? fun b => isExcluded c b.letter <;> rfl

/-- A whole slice that ends at the goal makes a circular sequence unless a letter is excluded. -/
theorem judge_full {part : List Beat} {locks : Locks} (hs : start.endState? = some first)
    (hp : Picked c start part locks) (hl : part.length = c.sliceLength)
    (hg : (lastState? start part).map Duo.locations =
      some (c.cap.onHands c.slice first.locations)) :
    (∃ all, judge c start part = .ok (.inl all) ∧ Circled c start first part all) ∨
    (∃ reach, judge c start part = .ok (.inr reach)) ∧ Failed c start first := by
  obtain ⟨mss, state, hj⟩ := hp.exists_joined hs
  rw [hj.lastState?] at hg
  obtain ⟨all, last, hall, hjall, hlast⟩ := exists_extend hj hs (Option.some.inj hg)
  have hjudge := judge_eq (by omega) hall
  cases hx : all.findIdx? fun b => isExcluded c b.letter with
  | none =>
    rw [hx] at hjudge
    refine .inl ⟨all, hjudge, ⟨_, hp⟩, hl, ?_, ⟨last, hjall, hlast⟩, ?_⟩
    · rw [hj.lastState?]
      exact hg
    · intro b hb
      simpa using List.findIdx?_eq_none_iff.mp hx b hb
  | some i =>
    rw [hx] at hjudge
    obtain ⟨hi, hb, -⟩ := List.findIdx?_eq_some_iff_getElem.mp hx
    exact .inr ⟨⟨_, hjudge⟩, .excluded hjall (List.getElem_mem hi) hb⟩

/-- A slice that got stuck before its end makes no sequence. -/
theorem judge_short {part : List Beat} {locks : Locks} {goal? : Option (Duo Location)}
    (hp : Picked c start part locks) (hl : part.length < c.sliceLength)
    (hg : goal? ∈ [none, some (c.cap.onHands c.slice first.locations)])
    (h : Stuck c start goal? part locks) :
    (∃ reach, judge c start part = .ok (.inr reach)) ∧ Failed c start first :=
  ⟨⟨⟨part.length + 1, part⟩, if_pos hl⟩, .stuck hp hg h⟩

/-- Slices are picked until one makes a circular sequence. If none does, every attempt failed. -/
theorem circular_spec (hs : start.endState? = some first) (hpos : 0 < c.sliceLength) (n : Nat)
    (attempts : Nat) (reach : Reach) :
    Yields (circular source c start (c.cap.onHands c.slice first.locations) n attempts reach)
      fun r => (∃ part all, r = .ok all ∧ Circled c start first part all) ∨
        (∃ beat made beats, r = .error (exhausted beat made start beats)) ∧
          (0 < n → Failed c start first) := by
  induction n generalizing attempts reach with
  | zero => exact .pure (.inr ⟨⟨_, _, _, rfl⟩, fun h => absurd h (Nat.lt_irrefl 0)⟩)
  | succ n ih =>
    refine .bind (slice_spec source start _ c.sliceLength .nil) ?_
    rintro ⟨part, search⟩ ⟨locks, hp, hpart⟩
    rw [List.length_nil, Nat.zero_add] at hpart
    have hjudge : (∃ all, judge c start part = .ok (.inl all) ∧ Circled c start first part all) ∨
        (∃ reach, judge c start part = .ok (.inr reach)) ∧ Failed c start first := by
      rcases hpart with ⟨hl, hg⟩ | ⟨hl, goal?, hg, hstuck⟩
      · exact judge_full hs hp hl (hg hpos)
      · exact .inr (judge_short hp hl hg hstuck)
    rcases hjudge with ⟨all, hj, hc⟩ | ⟨⟨further, hj⟩, hf⟩
    · simp only [hj]
      exact .pure (.inl ⟨part, all, rfl, hc⟩)
    · simp only [hj]
      refine (ih search.attempts (reach.farther further)).mono ?_
      rintro r (hr | ⟨hr, -⟩)
      · exact .inl hr
      · exact .inr ⟨hr, fun _ => hf⟩

/-- The beats that a configuration asks for, built after a start position. -/
inductive Built (c : Config) (start : Beat) (beats : List Beat) : Prop
  | freely {locks : Locks} (hm : c.mode = .freeform) (hp : Picked c start beats locks)
      (hl : beats.length = c.length)
  | circled {first : Duo Stance} {part : List Beat} (hm : c.mode = .circular)
      (hs : start.endState? = some first) (hc : Circled c start first part beats)

/-- Why nothing could be built. -/
inductive Unbuilt (c : Config) (start : Beat) : Prop
  | freely {part : List Beat} {locks : Locks} (hm : c.mode = .freeform)
      (hp : Picked c start part locks) (h : Stuck c start none part locks)
  | circled {first : Duo Stance} (hm : c.mode = .circular) (hs : start.endState? = some first)
      (h : Failed c start first)

theorem beatsAfter_spec (hc : c.Admitted) (hs : Started c start) :
    Yields (beatsAfter source c start) fun r => (∃ beats, r = .ok beats ∧ Built c start beats) ∨
      (∃ beat made beats, r = .error (exhausted beat made start beats)) ∧ Unbuilt c start := by
  unfold beatsAfter
  cases hm : c.mode with
  | freeform =>
    refine (freeform_spec source start c.length .nil).mono ?_
    rintro r (⟨all, locks, hr, hp, hl⟩ | ⟨part, locks, attempts, hr, hp, hstuck⟩)
    · exact .inl ⟨all, hr, .freely hm hp (by simpa using hl)⟩
    · exact .inr ⟨⟨_, _, _, hr⟩, .freely hm hp hstuck⟩
  | circular =>
    obtain ⟨first, hf⟩ := hs.exists_endState?
    have hstate : stateAfter start = .ok first := by rw [stateAfter, hf]; rfl
    simp only [hstate]
    refine (circular_spec source hf (hc.sliceLength_pos hm) c.maxAttempts 0 ⟨1, []⟩).mono ?_
    rintro r (⟨part, all, hr, hall⟩ | ⟨hr, hfail⟩)
    · exact .inl ⟨all, hr, .circled hm hf hall⟩
    · exact .inr ⟨hr, .circled hm hf (hfail hc.attempts_pos)⟩

theorem length_flatMap_range {α : Type} {f : Nat → List α} {s : Nat} (h : ∀ k, (f k).length = s)
    (n : Nat) : ((List.range n).flatMap f).length = n * s := by
  induction n with
  | zero => simp
  | succ n ih =>
    rw [List.range_succ, List.flatMap_append, List.length_append, ih, List.flatMap_singleton, h,
      Nat.succ_mul]

theorem length_repeated (part : List Beat) :
    (repeated c part).length = c.slice.repeats * part.length :=
  length_flatMap_range (fun _ => List.length_map _) _

/-- Built beats are joined to the start position, and there are as many as were asked for. In
circular mode the hands end where they started. -/
theorem Built.exists_joined {beats : List Beat} (h : Built c start beats) (hc : c.Admitted)
    (hs : Started c start) : ∃ mss first last, Joined start mss beats last ∧
      start.endState? = some first ∧ beats.length = c.length ∧
      (c.mode = .circular → last.locations = first.locations) := by
  cases h with
  | freely hm hp hl =>
    obtain ⟨first, hf⟩ := hs.exists_endState?
    obtain ⟨mss, last, hj⟩ := hp.exists_joined hf
    exact ⟨mss, first, last, hj, hf, hl, fun h => by rw [hm] at h; cases h⟩
  | @circled first part hm hf h =>
    obtain ⟨last, hj, hlast⟩ := h.joined
    refine ⟨_, first, last, hj, hf, ?_, fun _ => hlast⟩
    rw [hj.length_eq, length_repeated, h.length_eq, hc.repeats_mul_sliceLength hm]

theorem Started.number_eq (h : Started c start) : { start with number := 0 } = start := by
  obtain ⟨hands, -, hn, -⟩ := h.exists_carries
  rw [← hn]

/-- Built beats already carry the numbers that the sequence gives them. -/
theorem Built.renumber_eq {beats : List Beat} (h : Built c start beats) (hc : c.Admitted)
    (hs : Started c start) : Sequence.renumber beats = beats := by
  obtain ⟨mss, first, last, hj, -⟩ := h.exists_joined hc hs
  exact hj.renumber_eq

@[simp] theorem finish_startPosition (beats : List Beat) :
    (finish c start beats).startPosition = some { start with number := 0 } := by
  unfold finish
  cases c.mode <;> rfl

@[simp] theorem finish_beats (beats : List Beat) :
    (finish c start beats).beats = Sequence.renumber beats := by
  unfold finish
  cases c.mode <;> rfl

theorem length_finish (start : Beat) (beats : List Beat) :
    (finish c start beats).length = beats.length := by
  rw [Sequence.length, finish_beats, Sequence.length_renumber]

/-- Joined beats pass the validity check, and where the hands are back at the end the check of a
closed sequence too. -/
theorem Joined.validate {mss : List Motions} {beats : List Beat} {last : Duo Stance}
    (h : Joined start mss beats last) (hs : Started c start) {q : Sequence}
    (hstart : q.startPosition = some start) (hbeats : q.beats = beats) {closed : Bool}
    (hclosed : closed = true → (start.endState?).map Duo.locations = some last.locations) :
    q.validate closed = .ok () := by
  obtain ⟨hands, -, -, hcarries⟩ := hs.exists_carries
  have hf := hcarries.endState?
  have hclose : ¬ ((closed && decide ((inwardState hands).locations ≠ last.locations)) = true) := by
    simp only [Bool.and_eq_true, decide_eq_true_eq, not_and]
    intro hc hne
    have heq := hclosed hc
    rw [hf] at heq
    exact hne (Option.some.inj heq)
  simp only [Sequence.validate, hstart, hbeats, hcarries.startCourse, bind, Except.bind,
    h.checkBeats hf]
  exact if_neg hclose

/-- Built beats pass the validity check. -/
theorem Built.validate {beats : List Beat} (h : Built c start beats) (hc : c.Admitted)
    (hs : Started c start) :
    (finish c start beats).validate (c.mode = .circular) = .ok () := by
  obtain ⟨mss, first, last, hj, hf, -, hclosed⟩ := h.exists_joined hc hs
  refine hj.validate hs ?_ ?_ fun hm => ?_
  · rw [finish_startPosition, hs.number_eq]
  · rw [finish_beats, h.renumber_eq hc hs]
  · rw [hf, hclosed (of_decide_eq_true hm)]
    rfl

/-- A generation of an admitted configuration ends with the sequence of the beats it built, or
reports that it could not build any. -/
theorem run_spec (hc : c.Admitted) : Yields (run source c) fun r => ∃ start, Started c start ∧
    ((∃ beats, r = .ok (finish c start beats) ∧ Built c start beats) ∨
      (∃ beat made beats, r = .error (exhausted beat made start beats)) ∧ Unbuilt c start) := by
  refine .bind (drawStart_spec source) fun start hs => .bind (beatsAfter_spec source hc hs) ?_
  rintro _ (⟨beats, rfl, hb⟩ | ⟨⟨beat, made, beats, rfl⟩, hu⟩)
  · refine .pure ⟨start, hs, .inl ⟨beats, ?_, hb⟩⟩
    rw [hb.validate hc hs]
  · exact .pure ⟨start, hs, .inr ⟨⟨beat, made, beats, rfl⟩, hu⟩⟩

/-- How a generation may end: refused, with the sequence of built beats, or with a report that none
could be built. -/
inductive Outcome (c : Config) : Except GenerationError Sequence → Prop
  | refused {fault : Config.Fault} (h : c.check = .error fault) :
      Outcome c (.error (.invalidConfig fault))
  | built {start : Beat} {beats : List Beat} (hc : c.check = .ok ()) (hs : Started c start)
      (hb : Built c start beats) : Outcome c (.ok (finish c start beats))
  | unbuilt {start : Beat} {beats : List Beat} {beat made : Nat} (hc : c.check = .ok ())
      (hs : Started c start) (hu : Unbuilt c start) :
      Outcome c (.error (exhausted beat made start beats))

theorem generate_eq_run (hc : c.check = .ok ()) : generate source c = run source c := by
  rw [generate, hc]

theorem generate_spec : Yields (generate source c) (Outcome c) := by
  unfold generate
  cases hc : c.check with
  | error fault => exact .pure (.refused hc)
  | ok =>
    refine (run_spec source (Config.check_eq_ok_iff.mp hc)).mono ?_
    rintro r ⟨start, hs, ⟨beats, rfl, hb⟩ | ⟨⟨beat, made, beats, rfl⟩, hu⟩⟩
    · exact .built hc hs hb
    · exact .unbuilt hc hs hu

/-- What comes out is the sequence of beats that were built. -/
theorem exists_built {s : σ} {q : Sequence} (h : ((generate source c).run s).1 = .ok q) :
    ∃ start beats, c.Admitted ∧ Started c start ∧ Built c start beats ∧
      q = finish c start beats := by
  have hr : Outcome c ((generate source c).run s).1 := generate_spec source s
  generalize ((generate source c).run s).1 = r at h hr
  cases hr with
  | refused => cases h
  | built hc hs hb => exact ⟨_, _, Config.check_eq_ok_iff.mp hc, hs, hb, (Except.ok.inj h).symm⟩
  | unbuilt => cases h

/-- It has as many beats as were asked for. -/
theorem length_eq_of_generate {s : σ} {q : Sequence}
    (h : ((generate source c).run s).1 = .ok q) : q.length = c.length := by
  obtain ⟨start, beats, hc, hs, hb, rfl⟩ := exists_built source h
  obtain ⟨mss, first, last, -, -, hl, -⟩ := hb.exists_joined hc hs
  rw [length_finish, hl]

end KineticAlphabet.Generation
