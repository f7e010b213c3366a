import KineticAlphabet.Proofs.Completeness
import KineticAlphabet.Proofs.Scripting
import KineticAlphabet.Proofs.Tracing
/-!
What a search reports that found nothing. Every pick makes at least one attempt and at most as many
as are allowed. In freeform mode the report tells the beat whose pick failed and the beats before
it. In circular mode every restart fails, in the search for its slice or at the first excluded
letter of its repeats, and the report is that of the restart that came farthest, of several the
latest. The beats of a report are joined to the start position, so they pass the validity check.
-/
namespace KineticAlphabet.Generation

open KineticAlphabet.Random

variable {σ : Type} {source : Source σ} {c : Config} {start b : Beat} {beats : List Beat}
  {locks : Locks} {first last : Duo Stance} {search₀ search search' : Search} {s₀ s s' : σ}

theorem drawMotions_attempts (source : Source σ) (first : Pictograph) (others : List Pictograph)
    (locks : Locks) (tries attempts : Nat) :
    Yields (drawMotions source c first others locks tries attempts) fun r =>
      attempts ≤ r.2 ∧ (0 < tries → attempts < r.2) ∧ r.2 ≤ attempts + tries := by
  induction tries generalizing attempts with
  | zero => exact .pure ⟨Nat.le_refl _, nofun, Nat.le_refl _⟩
  | succ tries ih =>
    refine .bind .any fun i _ => .bind .any fun ms _ => ?_
    by_cases hp : locks.permits ms
    · rw [if_pos hp]
      exact .pure ⟨by omega, by omega, by omega⟩
    · rw [if_neg hp]
      exact (ih (attempts + 1)).mono fun r hr => ⟨by omega, by omega, by omega⟩

/-- Without locks the first draw is taken. -/
theorem drawMotions_free (source : Source σ) (first : Pictograph) (others : List Pictograph)
    {tries : Nat} (hpos : 0 < tries) (attempts : Nat) :
    Yields (drawMotions source c first others .free tries attempts) fun r =>
      (∃ ms, r.1 = some ms) ∧ r.2 = attempts + 1 := by
  obtain ⟨tries, rfl⟩ := Nat.exists_eq_succ_of_ne_zero (Nat.ne_of_gt hpos)
  refine .bind .any fun i _ => .bind .any fun ms _ => ?_
  rw [if_pos (Locks.permits_free ms)]
  exact .pure ⟨⟨ms, rfl⟩, rfl⟩

/-- A pick makes at least one attempt, and at most as many as are allowed. -/
theorem pick_attempts (source : Source σ) {state : Duo Stance}
    (hs : lastState? start beats = some state) (hpos : 0 < c.maxAttempts)
    (goal : Option (Duo Location)) (search : Search) :
    Yields (pick source c start beats goal search) fun r =>
      search.attempts < r.2.attempts ∧ r.2.attempts ≤ search.attempts + c.maxAttempts := by
  unfold pick
  rw [hs]
  dsimp only
  cases candidates c state goal with
  | nil => exact .pure ⟨Nat.lt_succ_self _, Nat.add_le_add_left hpos _⟩
  | cons first others =>
    refine .bind (drawMotions_attempts source first others search.locks _ _) ?_
    rintro ⟨ms?, attempts⟩ ⟨-, hlow, hup⟩
    cases ms? with
    | none => exact .pure ⟨hlow hpos, hup⟩
    | some ms => exact .pure ⟨hlow hpos, hup⟩

/-- Without locks it makes one, and fails only where nothing may follow. -/
theorem pick_free (source : Source σ) {state : Duo Stance}
    (hs : lastState? start beats = some state) (hpos : 0 < c.maxAttempts)
    (goal : Option (Duo Location)) (hfree : search.locks = .free) :
    Yields (pick source c start beats goal search) fun r =>
      r.2.attempts = search.attempts + 1 ∧ (r.1 = none → candidates c state goal = []) := by
  unfold pick
  rw [hs, hfree]
  dsimp only
  cases candidates c state goal with
  | nil => exact .pure ⟨rfl, fun _ => rfl⟩
  | cons first others =>
    refine .bind (drawMotions_free source first others hpos search.attempts) ?_
    rintro ⟨ms?, attempts⟩ ⟨⟨ms, rfl⟩, hmade⟩
    exact .pure ⟨hmade, nofun⟩

namespace Picks

variable {goal : Nat → Option (Duo Location)}

/-- Every pick of a trace made an attempt, and none made more than are allowed. -/
theorem attempts (h : Picks source c start goal search₀ s₀ beats search s)
    (hfree : search₀.locks = .free) (hs : Started c start) (hpos : 0 < c.maxAttempts) :
    search₀.attempts + beats.length ≤ search.attempts ∧
      search.attempts ≤ search₀.attempts + beats.length * c.maxAttempts := by
  induction h with
  | nil => simp
  | @snoc beats search search' s s' b h hb ih =>
    obtain ⟨state, hstate, -⟩ := (h.picked hfree).exists_state hs
    have hpick := pick_attempts source hstate hpos (goal beats.length) search s
    rw [hb] at hpick
    obtain ⟨hlow, hup⟩ := hpick
    rw [List.length_append, List.length_singleton, Nat.add_mul, Nat.one_mul]
    exact ⟨by dsimp only at hlow; omega, by dsimp only at hup; omega⟩

/-- With random props every pick of a trace made just one. -/
theorem attempts_random (h : Picks source c start goal search₀ s₀ beats search s)
    (hfree : search₀.locks = .free) (hs : Started c start) (hpos : 0 < c.maxAttempts)
    (hr : c.continuity = .random) : search.attempts = search₀.attempts + beats.length := by
  induction h with
  | nil => rfl
  | @snoc beats search search' s s' b h hb ih =>
    have hp := h.picked hfree
    obtain ⟨state, hstate, -⟩ := hp.exists_state hs
    have hpick := pick_free source hstate hpos (goal beats.length) (hp.locks_eq_free hr) s
    rw [hb] at hpick
    rw [hpick.1, ih, List.length_append, List.length_singleton, Nat.add_assoc]

end Picks

/-- The beats that a report can hold: some that were picked, or the first of those that a slice was
joined to. -/
inductive Reached (c : Config) (start : Beat) : List Beat → Prop
  | picked {beats : List Beat} {locks : Locks} (hp : Picked c start beats locks) :
      Reached c start beats
  | repeated {part all : List Beat} {locks : Locks} {last : Duo Stance}
      (hp : Picked c start part locks) (hj : Joined start (repeated c part) all last) (n : Nat) :
      Reached c start (all.take n)

/-- They are joined to the start position. -/
theorem Reached.exists_joined (h : Reached c start beats) (hs : Started c start) :
    ∃ mss last, Joined start mss beats last := by
  cases h with
  | picked hp =>
    obtain ⟨first, hf⟩ := hs.exists_endState?
    exact hp.exists_joined hf
  | repeated hp hj n => exact hj.take n

/-- A report holds the start position and the beats as they are. -/
theorem Reached.ofBeats_eq (h : Reached c start beats) (hs : Started c start) (name : String) :
    Sequence.ofBeats name (some start) beats = ⟨name, some start, beats, .empty⟩ := by
  obtain ⟨mss, last, hj⟩ := h.exists_joined hs
  rw [Sequence.ofBeats, hj.renumber_eq, Option.map_some, hs.number_eq]

theorem Reached.validate (h : Reached c start beats) (hs : Started c start) (name : String) :
    (Sequence.ofBeats name (some start) beats).validate false = .ok () := by
  obtain ⟨mss, last, hj⟩ := h.exists_joined hs
  rw [h.ofBeats_eq hs]
  exact hj.validate hs rfl rfl nofun

/-- A report ends where its search could not go on. -/
theorem Reached.endState? (h : Reached c start beats) (hs : Started c start) (name : String) :
    (Sequence.ofBeats name (some start) beats).endState? = lastState? start beats := by
  obtain ⟨mss, last, hj⟩ := h.exists_joined hs
  have hlast := hj.getLast?
  rw [h.ofBeats_eq hs, hj.lastState?, Sequence.endState?]
  cases hb : beats.getLast? with
  | none =>
    rw [List.getLast?_eq_none_iff] at hb
    simpa [hb] using hlast
  | some b => simpa [List.getLast?_cons, hb] using hlast

/-- How one restart fails, from the attempts made and the state of the source before it to those
after it. A pick of its slice fails, and the beat that was not found counts; or the slice is whole,
and the first beat that spells an excluded letter counts, of those that the slice was joined to. -/
inductive Restart (source : Source σ) (c : Config) (start : Beat) (goal : Duo Location)
    (made : Nat) (s : σ) : Reach → Nat → σ → Prop
  | stuck {part : List Beat} {search search' : Search} {s₁ s' : σ}
      (hp : Picks source c start (sliceGoal c goal) ⟨.free, made⟩ s part search s₁)
      (hl : part.length < c.sliceLength)
      (hfail : (pick source c start part (sliceGoal c goal part.length) search).run s₁ =
        ((none, search'), s')) :
      Restart source c start goal made s ⟨part.length + 1, part⟩ search'.attempts s'
  | excluded {part all : List Beat} {search : Search} {s' : σ} {i : Nat} {b : Beat}
      (hp : Picks source c start (sliceGoal c goal) ⟨.free, made⟩ s part search s')
      (hl : part.length = c.sliceLength) (hall : extend c start part = .ok all)
      (hi : all[i]? = some b) (hb : isExcluded c b.letter = true)
      (hfirst : ∀ b' ∈ all.take i, isExcluded c b'.letter = false) :
      Restart source c start goal made s ⟨i + 1, all.take i⟩ search.attempts s'

/-- Restarts that failed one after another, and how far each of them came. -/
inductive Restarts (source : Source σ) (c : Config) (start : Beat) (goal : Duo Location) :
    Nat → σ → List Reach → Nat → σ → Prop
  | nil {made : Nat} {s : σ} : Restarts source c start goal made s [] made s
  | cons {made made' made'' : Nat} {s s' s'' : σ} {reach : Reach} {reaches : List Reach}
      (h : Restart source c start goal made s reach made' s')
      (hs : Restarts source c start goal made' s' reaches made'' s'') :
      Restarts source c start goal made s (reach :: reaches) made'' s''

variable {goal : Duo Location} {made made' : Nat} {reach : Reach} {reaches : List Reach}

/-- A restart makes at least one attempt, and at most as many for each beat of its slice as are
allowed. -/
theorem Restart.attempts (h : Restart source c start goal made s reach made' s')
    (hs : Started c start) (hpos : 0 < c.maxAttempts) (hslice : 0 < c.sliceLength) :
    made + 1 ≤ made' ∧ made' ≤ made + c.sliceLength * c.maxAttempts := by
  cases h with
  | @stuck part search search' s₁ s' hp hl hfail =>
    obtain ⟨hlow, hup⟩ := hp.attempts rfl hs hpos
    obtain ⟨state, hstate, -⟩ := (hp.picked rfl).exists_state hs
    have hpick := pick_attempts source hstate hpos (sliceGoal c goal part.length) search s₁
    rw [hfail] at hpick
    have hmul : (part.length + 1) * c.maxAttempts ≤ c.sliceLength * c.maxAttempts :=
      Nat.mul_le_mul_right _ hl
    rw [Nat.add_mul, Nat.one_mul] at hmul
    dsimp only at hlow hup hpick
    omega
  | excluded hp hl hall hi hb hfirst =>
    obtain ⟨hlow, hup⟩ := hp.attempts rfl hs hpos
    rw [hl] at hlow hup
    dsimp only at hlow hup
    omega

theorem Restarts.attempts (h : Restarts source c start goal made s reaches made' s')
    (hs : Started c start) (hpos : 0 < c.maxAttempts) (hslice : 0 < c.sliceLength) :
    made + reaches.length ≤ made' ∧
      made' ≤ made + reaches.length * (c.sliceLength * c.maxAttempts) := by
  induction h with
  | nil => simp
  | cons h _ ih =>
    obtain ⟨hlow, hup⟩ := h.attempts hs hpos hslice
    rw [List.length_cons, Nat.add_mul, Nat.one_mul]
    omega

/-- The last beat of a whole slice ends at the goal. -/
theorem Picks.locations_last (h : Picks source c start (sliceGoal c goal) search₀ s₀ beats search s)
    (hl : beats.length = c.sliceLength) (hpos : 0 < c.sliceLength) :
    (lastState? start beats).map Duo.locations = some goal := by
  cases h with
  | nil =>
    rw [List.length_nil] at hl
    omega
  | @snoc beats search search' s s' b h hb =>
    rw [List.length_append, List.length_singleton] at hl
    have hstep := pick_spec source (c := c) start beats (sliceGoal c goal beats.length) search s
    rw [hb] at hstep
    obtain ⟨state, next, -, hc, hg⟩ := Step.exists_carries hstep
    simp [lastState?, hc.endState?, hg goal (if_pos hl)]

/-- A whole slice can be joined to its repeats. -/
theorem Picks.exists_extend {first : Duo Stance} (hs : start.endState? = some first)
    (h : Picks source c start (sliceGoal c (c.cap.onHands c.slice first.locations)) search₀ s₀ beats
      search s)
    (hfree : search₀.locks = .free) (hl : beats.length = c.sliceLength)
    (hpos : 0 < c.sliceLength) :
    ∃ all last, extend c start beats = .ok all ∧ Joined start (repeated c beats) all last := by
  obtain ⟨mss, state, hj⟩ := (h.picked hfree).exists_joined hs
  have hg := h.locations_last hl hpos
  rw [hj.lastState?] at hg
  obtain ⟨all, last, hall, hjall, -⟩ := Generation.exists_extend hj hs (Option.some.inj hg)
  exact ⟨all, last, hall, hjall⟩

/-- A restart comes as far as a beat of the sequence, and keeps the beats before that. -/
theorem Restart.reached (h : Restart source c start goal made s reach made' s')
    (hc : c.Admitted) (hm : c.mode = .circular) (hs : start.endState? = some first)
    (hgoal : goal = c.cap.onHands c.slice first.locations) :
    Reached c start reach.beats ∧ reach.beats.length + 1 = reach.beat ∧ reach.beat ≤ c.length := by
  have hlen := hc.repeats_mul_sliceLength hm
  cases h with
  | stuck hp hl hfail =>
    have hle : c.sliceLength ≤ c.length := by
      rw [← hlen]
      exact Nat.le_mul_of_pos_left _ (by cases c.slice <;> decide)
    exact ⟨.picked (hp.picked rfl), rfl, Nat.le_trans hl hle⟩
  | @excluded part all search s' i b hp hl hall hi hb hfirst =>
    subst hgoal
    obtain ⟨all', last, hall', hj⟩ := hp.exists_extend hs rfl hl (hc.sliceLength_pos hm)
    rw [hall] at hall'
    cases hall'
    obtain ⟨hlt, -⟩ := List.getElem?_eq_some_iff.mp hi
    refine ⟨.repeated (hp.picked rfl) hj i, ?_, ?_⟩
    · rw [List.length_take, Nat.min_eq_left (Nat.le_of_lt hlt)]
    · rw [← hlen, ← hl, ← length_repeated, ← hj.length_eq]
      exact hlt

theorem Restarts.reached (h : Restarts source c start goal made s reaches made' s')
    (hc : c.Admitted) (hm : c.mode = .circular) (hs : start.endState? = some first)
    (hgoal : goal = c.cap.onHands c.slice first.locations) : ∀ x ∈ reaches,
      Reached c start x.beats ∧ x.beats.length + 1 = x.beat ∧ x.beat ≤ c.length := by
  induction h with
  | nil => exact nofun
  | cons h _ ih =>
    intro x hx
    rcases List.mem_cons.mp hx with rfl | hx
    · exact h.reached hc hm hs hgoal
    · exact ih x hx

/-- The farthest of some reaches: of several equally far the latest. -/
theorem foldl_farther (reach : Reach) (reaches : List Reach) :
    (∀ x ∈ reaches, x.beat < reach.beat) ∧ reaches.foldl Reach.farther reach = reach ∨
    ∃ earlier later, reaches = earlier ++ reaches.foldl Reach.farther reach :: later ∧
      reach.beat ≤ (reaches.foldl Reach.farther reach).beat ∧
      (∀ x ∈ earlier, x.beat ≤ (reaches.foldl Reach.farther reach).beat) ∧
      ∀ x ∈ later, x.beat < (reaches.foldl Reach.farther reach).beat := by
  induction reaches generalizing reach with
  | nil => exact .inl ⟨nofun, rfl⟩
  | cons next reaches ih =>
    rw [List.foldl_cons]
    by_cases hle : reach.beat ≤ next.beat
    · have hnext : reach.farther next = next := if_pos hle
      rw [hnext]
      rcases ih next with ⟨hless, heq⟩ | ⟨earlier, later, hsplit, hfar, he, hl⟩
      · rw [heq]
        exact .inr ⟨[], reaches, rfl, hle, nofun, hless⟩
      · refine .inr ⟨next :: earlier, later, congrArg (next :: ·) hsplit, Nat.le_trans hle hfar,
          ?_, hl⟩
        simpa using ⟨hfar, he⟩
    · have hnext : reach.farther next = reach := if_neg hle
      rw [hnext]
      have hlt : next.beat < reach.beat := Nat.lt_of_not_le hle
      rcases ih reach with ⟨hless, heq⟩ | ⟨earlier, later, hsplit, hfar, he, hl⟩
      · refine .inl ⟨?_, heq⟩
        simpa using ⟨hlt, hless⟩
      · refine .inr ⟨next :: earlier, later, congrArg (next :: ·) hsplit, hfar, ?_, hl⟩
        simpa using ⟨Nat.le_trans (Nat.le_of_lt hlt) hfar, he⟩

/-- One restart of a circular search makes a sequence, or it fails. -/
theorem restart_run (hs : start.endState? = some first) (hpos : 0 < c.sliceLength) (made : Nat)
    (s : σ) : ∃ part search s',
      (slice source c start (c.cap.onHands c.slice first.locations) c.sliceLength []
        ⟨.free, made⟩).run s = ((part, search), s') ∧
      ((∃ all, judge c start part = .ok (.inl all)) ∨
        ∃ reach, judge c start part = .ok (.inr reach) ∧
          Restart source c start (c.cap.onHands c.slice first.locations) made s reach
            search.attempts s') := by
  rcases Picks.nil.slice_run c.sliceLength (Nat.zero_add _) with
    ⟨part, search, s', hp, hl, hr⟩ | ⟨part, search, s₁, search', s', hp, hl, hfail, hr⟩
  · refine ⟨part, search, s', hr, ?_⟩
    obtain ⟨all, last, hall, hj⟩ := hp.exists_extend hs rfl hl hpos
    have hjudge := judge_eq (Nat.not_lt.mpr (Nat.le_of_eq hl.symm)) hall
    cases hx : all.findIdx? fun b => isExcluded c b.letter with
    | none =>
      rw [hx] at hjudge
      exact .inl ⟨all, hjudge⟩
    | some i =>
      rw [hx] at hjudge
      obtain ⟨hi, hb, hfirst⟩ := List.findIdx?_eq_some_iff_getElem.mp hx
      refine .inr ⟨_, hjudge, .excluded hp hl hall (List.getElem?_eq_getElem hi) hb ?_⟩
      intro b' hb'
      obtain ⟨j, hj', rfl⟩ := List.getElem_of_mem hb'
      rw [List.length_take] at hj'
      rw [List.getElem_take]
      simpa using hfirst j (Nat.lt_of_lt_of_le hj' (Nat.min_le_left _ _))
  · exact ⟨part, search', s', hr, .inr ⟨_, if_pos hl, .stuck hp hl hfail⟩⟩

/-- A circular search finds a sequence, or all its restarts fail and it reports the farthest. -/
theorem circular_run (hs : start.endState? = some first) (hpos : 0 < c.sliceLength) (n made : Nat)
    (reach : Reach) (s : σ) :
    (∃ all s', (circular source c start (c.cap.onHands c.slice first.locations) n made
      reach).run s = (.ok all, s')) ∨
    ∃ reaches made' s', Restarts source c start (c.cap.onHands c.slice first.locations) made s
        reaches made' s' ∧ reaches.length = n ∧
      (circular source c start (c.cap.onHands c.slice first.locations) n made reach).run s =
        (.error (exhausted (reaches.foldl Reach.farther reach).beat made' start
          (reaches.foldl Reach.farther reach).beats), s') := by
  -- the reach so far is where the fold over the reaches of the restarts to come begins
  induction n generalizing made reach s with
  | zero => exact .inr ⟨[], made, s, .nil, rfl, rfl⟩
  | succ n ih =>
    obtain ⟨part, search, s', hr, ⟨all, hj⟩ | ⟨further, hj, hrestart⟩⟩ := restart_run hs hpos made s
    · refine .inl ⟨all, s', ?_⟩
      rw [circular, run_bind_of_eq hr]
      simp only [hj]
      rfl
    · rw [circular, run_bind_of_eq hr]
      simp only [hj]
      rcases ih search.attempts (reach.farther further) s' with
        hfound | ⟨reaches, made', s'', hrs, hl, hrun⟩
      · exact .inl hfound
      · exact .inr ⟨further :: reaches, made', s'', .cons hrestart hrs, congrArg Nat.succ hl, hrun⟩

/-- The beats of a report, and the number of the beat behind them that was not found. -/
structure Missed (c : Config) (start : Beat) (beat : Nat) (reached : Sequence) (beats : List Beat) :
    Prop where
  reached_eq : reached = .ofBeats "partial" (some start) beats
  beats_reached : Reached c start beats
  length_eq : beats.length + 1 = beat
  beat_le : beat ≤ c.length

/-- What a report of freeform generation tells. With random props each beat was one attempt, and
nothing that is allowed starts where the beats before end. -/
structure FreeformReport (c : Config) (beat made : Nat) (reached : Sequence) : Prop where
  beat_le : beat ≤ made
  le_mul : made ≤ beat * c.maxAttempts
  random : c.continuity = .random → made = beat ∧ ∃ state, reached.endState? = some state ∧
    ∀ p ∈ Catalog.startingAt c.grid state.locations,
      p.letterText ∈ c.excludedLetters ∨ p.letterType ∉ c.letterTypes

/-- What a report of circular generation tells: all restarts failed, and it is that of the one that
came farthest, of several the latest. -/
structure CircularReport (source : Source σ) (c : Config) (start : Beat) (s : σ) (beat made : Nat)
    (reached : Sequence) : Prop where
  attempts_le : c.maxAttempts ≤ made
  le_mul : made ≤ c.maxAttempts * c.maxAttempts * c.sliceLength
  farthest : ∃ first earlier reach later s', start.endState? = some first ∧
    Restarts source c start (c.cap.onHands c.slice first.locations) 0 s
      (earlier ++ reach :: later) made s' ∧
    (earlier ++ reach :: later).length = c.maxAttempts ∧
    reach.beat = beat ∧ reach.beats = reached.beats ∧
    (∀ x ∈ earlier, x.beat ≤ beat) ∧ ∀ x ∈ later, x.beat < beat

theorem not_allowed_of_candidates_eq_nil {state : Duo Stance} (hm : c.mode = .freeform)
    (h : candidates c state none = []) {p : Pictograph}
    (hp : p ∈ Catalog.startingAt c.grid state.locations) :
    p.letterText ∈ c.excludedLetters ∨ p.letterType ∉ c.letterTypes := by
  have hfilter := List.filter_eq_nil_iff.mp h p hp
  by_cases hx : p.letterText ∈ c.excludedLetters
  · exact .inl hx
  · refine .inr fun ht => hfilter ?_
    simp [isAllowed, isExcluded, hm, hx, ht]

theorem freeform_report (hc : c.Admitted) (hm : c.mode = .freeform) (hs : Started c start)
    {beat made : Nat} {reached : Sequence}
    (h : ((beatsAfter source c start).run s).1 = .error (.exhausted beat made reached)) :
    (∃ beats, Missed c start beat reached beats) ∧ FreeformReport c beat made reached := by
  simp only [beatsAfter, hm] at h
  rcases Picks.nil.freeform_run c.length with
    ⟨_, _, _, _, _, hr⟩ | ⟨part, search, s₁, search', s', hp, hl, hfail, hr⟩
  · rw [hr] at h
    cases h
  · rw [hr] at h
    cases h
    have hpicked := hp.picked rfl
    obtain ⟨hlow, hup⟩ := hp.attempts rfl hs hc.attempts_pos
    obtain ⟨state, hstate, -⟩ := hpicked.exists_state hs
    have hpick := pick_attempts source hstate hc.attempts_pos none search s₁
    rw [hfail] at hpick
    dsimp only at hlow hup hpick
    rw [List.length_nil, Nat.zero_add] at hl
    refine ⟨⟨part, rfl, .picked hpicked, rfl, hl⟩, by omega, ?_, fun hrandom => ?_⟩
    · rw [Nat.add_mul, Nat.one_mul]
      omega
    · have hfree := pick_free source hstate hc.attempts_pos none (hpicked.locks_eq_free hrandom) s₁
      rw [hfail] at hfree
      have hmade := hp.attempts_random rfl hs hc.attempts_pos hrandom
      refine ⟨?_, state, ?_, fun p => not_allowed_of_candidates_eq_nil hm (hfree.2 rfl)⟩
      · rw [hfree.1, hmade, Nat.zero_add]
      · rw [(Reached.picked hpicked).endState? hs, hstate]

theorem circular_report (hc : c.Admitted) (hm : c.mode = .circular) (hs : Started c start)
    {beat made : Nat} {reached : Sequence}
    (h : ((beatsAfter source c start).run s).1 = .error (.exhausted beat made reached)) :
    (∃ beats, Missed c start beat reached beats) ∧
      CircularReport source c start s beat made reached := by
  obtain ⟨first, hf⟩ := hs.exists_endState?
  have hstate : stateAfter start = .ok first := by rw [stateAfter, hf]; rfl
  have hslice := hc.sliceLength_pos hm
  simp only [beatsAfter, hm, hstate] at h
  rcases circular_run hf hslice c.maxAttempts 0 ⟨1, []⟩ s with
    ⟨all, s', hr⟩ | ⟨reaches, made', s', hrs, hl, hr⟩
  · rw [hr] at h
    cases h
  · rw [hr] at h
    cases h
    have hreached := hrs.reached hc hm hf rfl
    obtain ⟨hlow, hup⟩ := hrs.attempts hs hc.attempts_pos hslice
    rw [hl, Nat.zero_add] at hlow hup
    rcases foldl_farther ⟨1, []⟩ reaches with ⟨hless, -⟩ | ⟨earlier, later, hsplit, -, he, hlater⟩
    · -- no reach lies before the first beat, and some restart was made
      obtain ⟨x, hx⟩ := List.exists_mem_of_length_pos (hl ▸ hc.attempts_pos)
      have hlt := hless x hx
      have hx' := (hreached x hx).2.1
      dsimp only at hlt
      omega
    · generalize reaches.foldl Reach.farther ⟨1, []⟩ = reach at hsplit he hlater ⊢
      subst hsplit
      obtain ⟨hb, hlen, hle⟩ := hreached reach (by simp)
      have hbeats : reach.beats = (Sequence.ofBeats "partial" (some start) reach.beats).beats := by
        rw [hb.ofBeats_eq hs]
      refine ⟨⟨reach.beats, rfl, hb, hlen, hle⟩, hlow, ?_,
        first, earlier, reach, later, s', hf, hrs, hl, rfl, hbeats, he, hlater⟩
      rw [Nat.mul_assoc, Nat.mul_comm c.maxAttempts c.sliceLength]
      exact hup

/-- What a generation that found nothing reports are beats after the start position that it drew,
with what its mode tells about them. -/
theorem exists_missed {beat made : Nat} {reached : Sequence}
    (h : ((generate source c).run s).1 = .error (.exhausted beat made reached)) :
    ∃ start s', c.Admitted ∧ (drawStart source c).run s = (start, s') ∧ Started c start ∧
      (∃ beats, Missed c start beat reached beats) ∧
      (c.mode = .freeform → FreeformReport c beat made reached) ∧
      (c.mode = .circular → CircularReport source c start s' beat made reached) := by
  cases hc : c.check with
  | error fault =>
    rw [generate, hc] at h
    cases h
  | ok =>
    have ha := Config.check_eq_ok_iff.mp hc
    rcases hs : (drawStart source c).run s with ⟨start, s'⟩
    have hstart := Started.of_drawStart hs
    have hbeats : ((beatsAfter source c start).run s').1 =
        .error (.exhausted beat made reached) := by
      rw [generate_run hc hs] at h
      cases hr : ((beatsAfter source c start).run s').1 with
      | ok beats =>
        rw [hr] at h
        cases h
      | error e =>
        rw [hr] at h
        cases h
        rfl
    refine ⟨start, s', ha, rfl, hstart, ?_⟩
    cases hm : c.mode with
    | freeform =>
      obtain ⟨hmissed, hreport⟩ := freeform_report ha hm hstart hbeats
      refine ⟨hmissed, fun _ => hreport, fun h => ?_⟩
      cases h
    | circular =>
      obtain ⟨hmissed, hreport⟩ := circular_report ha hm hstart hbeats
      refine ⟨hmissed, fun h => ?_, fun _ => hreport⟩
      cases h

/-- In freeform mode the beats of whatever comes out, a sequence or a report, are those that were
picked. -/
theorem exists_picked_of_freeform (hm : c.mode = .freeform) :
    (∀ q, ((generate source c).run s).1 = .ok q →
      ∃ start locks, Started c start ∧ Picked c start q.beats locks) ∧
    ∀ beat made reached, ((generate source c).run s).1 = .error (.exhausted beat made reached) →
      ∃ start locks, Started c start ∧ Picked c start reached.beats locks := by
  constructor
  · intro q h
    obtain ⟨start, beats, ha, hs, hb, rfl⟩ := exists_built source h
    rw [finish_beats, hb.renumber_eq ha hs]
    cases hb with
    | freely _ hp _ => exact ⟨start, _, hs, hp⟩
    | circled hm' _ _ =>
      rw [hm] at hm'
      cases hm'
  · intro beat made reached h
    cases hc : c.check with
    | error fault =>
      rw [generate, hc] at h
      cases h
    | ok =>
      rcases hdraw : (drawStart source c).run s with ⟨start, s'⟩
      have hs := Started.of_drawStart hdraw
      have hnil : Picked c start [] (⟨.free, 0⟩ : Search).locks := .nil
      rw [generate_run_freeform hc hm hdraw] at h
      rcases freeform_spec source start c.length hnil s' with
        ⟨_, _, hr, -, -⟩ | ⟨part, locks, attempts, hr, hp, -⟩
      · rw [hr] at h
        cases h
      · rw [hr] at h
        cases h
        refine ⟨start, locks, hs, ?_⟩
        rw [(Reached.picked hp).ofBeats_eq hs]
        exact hp

/-- The report of a generation that found nothing is true. It holds the start position that was
drawn and the beats before the one that was not found, which pass the validity check, and its
number of attempts and that beat are what the mode says. -/
theorem generate_report (source : Source σ) {beat made : Nat} {reached : Sequence}
    (h : ((generate source c).run s).1 = .error (.exhausted beat made reached)) :
    ∃ start s', (drawStart source c).run s = (start, s') ∧ reached.startPosition = some start ∧
      reached.length + 1 = beat ∧ beat ≤ c.length ∧ reached.validate false = .ok () ∧
      (c.mode = .freeform → FreeformReport c beat made reached) ∧
      (c.mode = .circular → CircularReport source c start s' beat made reached) := by
  obtain ⟨start, s', ha, hdraw, hs, ⟨beats, rfl, hb, hlen, hle⟩, hreport⟩ := exists_missed h
  refine ⟨start, s', hdraw, ?_, ?_, hle, hb.validate hs "partial", hreport⟩
  · rw [hb.ofBeats_eq hs]
  · rw [hb.ofBeats_eq hs]
    exact hlen

def missed? : Except GenerationError Sequence → Option (Nat × Nat)
  | .error (.exhausted beat made _) => some (beat, made)
  | _ => none

theorem exists_of_missed? {r : Except GenerationError Sequence} {beat made : Nat}
    (h : missed? r = some (beat, made)) :
    ∃ reached, r = .error (.exhausted beat made reached) := by
  unfold missed? at h
  split at h
  case h_1 reached =>
    cases h
    exact ⟨reached, rfl⟩
  case h_2 => cases h

/-- Two restarts for four beats, the second half of which complements the first, without two of the
letters that complements spell. -/
def twoRestarts : Config :=
  { Config.standard.withCap .strictComplementary .halved with
    length := 4, continuity := .random, excludedLetters := ["H", "K"], maxAttempts := 2 }

/-- The first restart draws D and J, and their complements spell E and K; the second draws G twice,
and its complement spells H. The first came farther. -/
theorem missed?_twoRestarts :
    missed? ((generate script twoRestarts).run [0, 0, 1, 0, 0, 0]).1 = some (4, 4) := by
  have hslice : twoRestarts.sliceLength = 2 := rfl
  have hmax : twoRestarts.maxAttempts = 2 := rfl
  -- with its entries numbered from the front the catalog is evaluated in a moment
  simp only [generate, run, beatsAfter, hslice, hmax, circular, slice, pick, candidates,
    Catalog.startingAt, Catalog.entries_eq_build, Catalog.build_eq_map_zipIdx]
  decide +kernel

/-- So the report is of the first restart, with the three beats before K. -/
theorem generate_report_twoRestarts : ∃ reached start s',
    ((generate script twoRestarts).run [0, 0, 1, 0, 0, 0]).1 = .error (.exhausted 4 4 reached) ∧
    reached.startPosition = some start ∧ reached.length = 3 ∧
    reached.validate false = .ok () ∧
    CircularReport script twoRestarts start s' 4 4 reached := by
  obtain ⟨reached, hreached⟩ := exists_of_missed? missed?_twoRestarts
  obtain ⟨start, s', -, hstart, hlen, -, hvalid, -, hreport⟩ := generate_report script hreached
  exact ⟨reached, start, s', hreached, hstart, Nat.succ.inj hlen, hvalid, hreport rfl⟩

end KineticAlphabet.Generation
