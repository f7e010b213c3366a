import KineticAlphabet.Proofs.Catalog
import KineticAlphabet.Proofs.Joining
/-!
What picking does, whatever is drawn. One pick either joins a beat of a candidate, dressed so that
the locks permit it, or it is stuck for a reason. What freeform generation and the search for a
slice come to is what such picks build up from the start position.
-/
namespace KineticAlphabet.Generation

open KineticAlphabet.Random

section

variable {σ α β : Type}

/-- Whatever state a source is in, what comes out has a property. -/
def Yields (x : StateM σ α) (P : α → Prop) : Prop := ∀ s, P (x.run s).1

namespace Yields

variable {x : StateM σ α} {f : α → StateM σ β} {P : α → Prop} {Q : β → Prop}

theorem pure {a : α} (h : P a) : Yields (Pure.pure a : StateM σ α) P := fun _ => h

theorem bind (hx : Yields x P) (hf : ∀ a, P a → Yields (f a) Q) : Yields (x >>= f) Q :=
  fun s => hf _ (hx s) _

theorem map {g : α → β} (hx : Yields x P) (hg : ∀ a, P a → Q (g a)) : Yields (g <$> x) Q :=
  fun s => hg _ (hx s)

theorem any : Yields x fun _ => True := fun _ => trivial

theorem mono {P' : α → Prop} (hx : Yields x P) (h : ∀ a, P a → P' a) : Yields x P' :=
  fun s => h _ (hx s)

end Yields

end

variable {σ : Type} (source : Source σ) {c : Config}

/-- The turns that a level may give a motion. -/
inductive MayTurn (c : Config) : Turns → Prop
  | whole {n : Nat} (hl : c.level = 2) (hn : n ≤ wholeLimit c) : MayTurn c (.whole (.ofNat n))
  | half {n : Nat} (hl : c.level = 3) (hn : n ≤ halfLimit c) : MayTurn c (.half (.ofNat n))
  | zero (h2 : c.level ≠ 2) (h3 : c.level ≠ 3) : MayTurn c .zero

theorem drawTurns_spec : Yields (drawTurns source c) (MayTurn c) := by
  unfold drawTurns
  split
  case h_1 hl => exact .bind .any fun i _ => .pure (.whole hl (Nat.le_of_lt_succ i.isLt))
  case h_2 hl => exact .bind .any fun i _ => .pure (.half hl (Nat.le_of_lt_succ i.isLt))
  case h_3 h2 h3 => exact .pure (.zero h2 h3)

/-- The spin that a static or a dash may get. -/
def MaySpin (turns : Turns) (lock : Option Rotation) (spin : Rotation) : Prop :=
  if turns.isZero then spin = .none
  else match lock with
    | some locked => spin = locked
    | none => spin.spins = true

theorem drawSpin_spec (turns : Turns) (lock : Option Rotation) :
    Yields (drawSpin source turns lock) (MaySpin turns lock) := by
  unfold drawSpin MaySpin
  split
  · exact .pure rfl
  · cases lock with
    | some spin => exact .pure rfl
    | none =>
      refine .bind .any fun b _ => .pure ?_
      cases b <;> rfl

/-- What a motion of the catalog may be dressed as: a shift with turns, a float along the same way,
or a static or a dash with turns and spin. -/
inductive Dressed (c : Config) (lock : Option Rotation) (m : Motion) : Motion → Prop
  | shift {turns : Turns} (hm : m.motionType.isShift) (ht : MayTurn c turns) :
      Dressed c lock m { m with turns }.rederive
  | float (hm : m.motionType.isShift) (hl : 3 ≤ c.level) : Dressed c lock m m.intoFloat
  | still {turns : Turns} {spin : Rotation} (hm : m.motionType.isShift = false)
      (ht : MayTurn c turns) (hs : MaySpin turns lock spin) :
      Dressed c lock m { m with turns, spin }.rederive

theorem dress_spec (m : Motion) (lock : Option Rotation) :
    Yields (dress source c m lock) (Dressed c lock m) := by
  unfold dress
  refine .bind (drawTurns_spec source) fun turns ht => ?_
  by_cases hm : m.motionType.isShift
  · simp only [hm, if_true]
    by_cases hl : 3 ≤ c.level
    · simp only [hl, if_true]
      refine .bind .any fun b _ => ?_
      cases b with
      | true => exact .pure (.float hm hl)
      | false => exact .pure (.shift hm ht)
    · simp only [hl, if_false]
      exact .pure (.shift hm ht)
  · simp only [hm]
    refine .bind (drawSpin_spec source turns lock) fun spin hs => ?_
    exact .pure (.still (by simpa using hm) ht hs)

namespace Dressed

variable {lock : Option Rotation} {m m' : Motion}

theorem startLocation (h : Dressed c lock m m') : m'.startLocation = m.startLocation := by
  cases h <;> rfl

theorem endLocation (h : Dressed c lock m m') : m'.endLocation = m.endLocation := by
  cases h <;> rfl

end Dressed

/-- Motions that may be drawn for a pick: those of a candidate, dressed. -/
inductive Drawn (c : Config) (locks : Locks) (hands : Duo Location)
    (goal : Option (Duo Location)) : Motions → Prop
  | intro {plain dressed : Duo Motion} {l : Letter} (hc : Candidate c hands goal plain l)
      (hd : ∀ a, Dressed c (locks.get a) (plain.get a) (dressed.get a)) :
      Drawn c locks hands goal (dressed.map some)

namespace Drawn

variable {locks : Locks} {hands : Duo Location} {ms : Motions}

theorem startHands? {goal : Option (Duo Location)} (h : Drawn c locks hands goal ms) :
    ms.startHands? = some hands := by
  cases h with
  | @intro plain dressed l hc hd =>
    refine Duo.startHands?_eq_some_iff.mpr ⟨dressed, rfl, ?_⟩
    rw [← hc.startLocations]
    exact Duo.ext (hd .blue).startLocation (hd .red).startLocation

theorem endHands? {goal : Duo Location} (h : Drawn c locks hands (some goal) ms) :
    ms.endHands? = some goal := by
  cases h with
  | @intro plain dressed l hc hd =>
    have he : dressed.map Motion.endLocation = plain.map Motion.endLocation :=
      Duo.ext (hd .blue).endLocation (hd .red).endLocation
    rw [← hc.reaches goal rfl, ← he]
    rfl

end Drawn

theorem dressMotions_spec (locks : Locks) (plain : Duo Motion) :
    Yields (dressMotions source c locks (plain.map some)) fun ms =>
      ∃ dressed : Duo Motion, ms = dressed.map some ∧
        ∀ a, Dressed c (locks.get a) (plain.get a) (dressed.get a) := by
  unfold dressMotions
  refine .bind (P := fun blue? => ∃ blue, blue? = some blue ∧
    Dressed c locks.blue plain.blue blue) ?_ ?_
  · exact .map (dress_spec source _ _) fun blue hb => ⟨blue, rfl, hb⟩
  · rintro _ ⟨blue, rfl, hb⟩
    refine .bind (P := fun red? => ∃ red, red? = some red ∧ Dressed c locks.red plain.red red) ?_ ?_
    · exact .map (dress_spec source _ _) fun red hr => ⟨red, rfl, hr⟩
    · rintro _ ⟨red, rfl, hr⟩
      exact .pure ⟨⟨blue, red⟩, rfl, Actor.forall_iff.mpr ⟨hb, hr⟩⟩

theorem drawMotions_spec {hands : Duo Location} {goal : Option (Duo Location)}
    {first : Pictograph} {others : List Pictograph} (locks : Locks)
    (hp : ∀ p ∈ first :: others, ∃ plain l, p.motions = plain.map some ∧
      Candidate c hands goal plain l) (tries attempts : Nat) :
    Yields (drawMotions source c first others locks tries attempts) fun r =>
      match r.1 with
      | some ms => Drawn c locks hands goal ms ∧ locks.permits ms = true
      | none => tries = 0 ∨ ∃ ms, Drawn c locks hands goal ms ∧ locks.permits ms = false := by
  induction tries generalizing attempts with
  | zero => exact .pure (.inl rfl)
  | succ tries ih =>
    refine .bind .any fun i _ => ?_
    obtain ⟨plain, l, hm, hc⟩ := hp _ (List.getElem_mem i.isLt)
    have hm' : (first :: others)[i].motions = plain.map some := hm
    rw [hm']
    refine .bind (dressMotions_spec source locks plain) ?_
    rintro _ ⟨dressed, rfl, hd⟩
    have hdrawn : Drawn c locks hands goal (dressed.map some) := .intro hc hd
    by_cases hl : locks.permits (dressed.map some)
    · rw [if_pos hl]
      exact .pure ⟨hdrawn, hl⟩
    · rw [if_neg hl]
      refine (ih (attempts + 1)).mono fun r hr => ?_
      cases hr' : r.1 with
      | some ms => simpa only [hr'] using hr
      | none => exact .inr ⟨_, hdrawn, by simpa using hl⟩

/-- Before anybody has spun nothing is refused. -/
theorem Locks.permits_free (ms : Motions) : Locks.free.permits ms = true := by
  simp [permits, free, Duo.get, Actor.all]

/-- One pick: a beat of drawn motions that the locks permit, joined to the beats before, and the
locks after it. -/
inductive Step (c : Config) (start : Beat) (goal : Option (Duo Location)) (beats : List Beat)
    (locks : Locks) : Beat → Locks → Prop
  | intro {state : Duo Stance} {ms : Motions} (hs : lastState? start beats = some state)
      (hd : Drawn c locks state.locations goal ms) (hp : locks.permits ms = true) :
      Step c start goal beats locks (assemble (beats.length + 1) ms state (start :: beats))
        (locks.record c.continuity ms)

/-- A picked beat leads on from the last state, to the goal if there is one. -/
theorem Step.exists_carries {start b : Beat} {goal : Option (Duo Location)} {beats : List Beat}
    {locks locks' : Locks} (h : Step c start goal beats locks b locks') :
    ∃ state next, lastState? start beats = some state ∧ b.Carries state next ∧
      ∀ g, goal = some g → next.locations = g := by
  cases h with
  | @intro state ms hs hd hp =>
    obtain ⟨next, hc, he⟩ := assemble_carries (beats.length + 1) (start :: beats) hd.startHands?
    refine ⟨state, next, hs, hc, ?_⟩
    rintro g rfl
    rw [hd.endHands?] at he
    exact (Option.some.inj he).symm

/-- Why no beat was found: there is no state to go on from, nothing may follow it, nothing was
tried, or the locks refused what was drawn. -/
inductive Stuck (c : Config) (start : Beat) (goal : Option (Duo Location)) (beats : List Beat)
    (locks : Locks) : Prop
  | lost (h : lastState? start beats = none)
  | noCandidate {state : Duo Stance} (hs : lastState? start beats = some state)
      (h : ∀ ms l, ¬ Candidate c state.locations goal ms l)
  | noTries (h : c.maxAttempts = 0)
  | refused {state : Duo Stance} {ms : Motions} (hs : lastState? start beats = some state)
      (hd : Drawn c locks state.locations goal ms) (hp : locks.permits ms = false)

theorem pick_spec (start : Beat) (beats : List Beat) (goal : Option (Duo Location))
    (search : Search) :
    Yields (pick source c start beats goal search) fun r =>
      match r.1 with
      | some b => Step c start goal beats search.locks b r.2.locks
      | none => Stuck c start goal beats search.locks := by
  unfold pick
  cases hs : lastState? start beats with
  | none => exact .pure (.lost hs)
  | some state =>
    dsimp only
    cases hcand : candidates c state goal with
    | nil =>
      refine .pure (Stuck.noCandidate hs ?_)
      intro ms l h
      obtain ⟨p, hp, -⟩ := h.exists_mem
      rw [hcand] at hp
      cases hp
    | cons first others =>
      have hp : ∀ p ∈ first :: others, ∃ plain l, p.motions = plain.map some ∧
          Candidate c state.locations goal plain l := by
        intro p hp
        exact exists_candidate_of_mem (hcand ▸ hp)
      refine .bind (drawMotions_spec source search.locks hp c.maxAttempts search.attempts) ?_
      rintro ⟨ms?, attempts⟩ hr
      cases ms? with
      | some ms => exact .pure (.intro hs hr.1 hr.2)
      | none =>
        refine .pure ?_
        rcases hr with hr | ⟨ms, hd, hl⟩
        · exact .noTries hr
        · exact .refused hs hd hl

/-- The beats and the locks that picks can build up from a start position. -/
inductive Picked (c : Config) (start : Beat) : List Beat → Locks → Prop
  | nil : Picked c start [] .free
  | snoc {beats : List Beat} {locks locks' : Locks} {b : Beat} {goal : Option (Duo Location)}
      (h : Picked c start beats locks) (hb : Step c start goal beats locks b locks') :
      Picked c start (beats ++ [b]) locks'

/-- What every pick makes sure of its beat holds of all beats that were picked. -/
theorem Picked.forall_mem {P : Beat → Prop} {start : Beat} {beats : List Beat} {locks : Locks}
    (hP : ∀ {beats locks goal b locks'}, Picked c start beats locks →
      Step c start goal beats locks b locks' → P b)
    (h : Picked c start beats locks) : ∀ b ∈ beats, P b := by
  induction h with
  | nil => simp
  | snoc h hb ih =>
    intro b hmem
    rcases List.mem_append.mp hmem with hmem | hmem
    · exact ih b hmem
    · rw [List.mem_singleton.mp hmem]
      exact hP h hb

/-- Freeform generation picks all its beats, or it gets stuck and reports the beats it has. -/
theorem freeform_spec (start : Beat) (n : Nat) {beats : List Beat} {search : Search}
    (h : Picked c start beats search.locks) :
    Yields (freeform source c start n beats search) fun r =>
      (∃ all locks, r = .ok all ∧ Picked c start all locks ∧ all.length = beats.length + n) ∨
      ∃ part locks attempts, r = .error (exhausted (part.length + 1) attempts start part) ∧
        Picked c start part locks ∧ Stuck c start none part locks := by
  induction n generalizing beats search with
  | zero => exact .pure (.inl ⟨beats, _, rfl, h, rfl⟩)
  | succ n ih =>
    refine .bind (pick_spec source start beats none search) ?_
    rintro ⟨b?, search'⟩ hb
    cases b? with
    | none => exact .pure (.inr ⟨beats, _, _, rfl, h, hb⟩)
    | some b =>
      refine (ih (h.snoc hb)).mono fun r hr => ?_
      rw [List.length_append, List.length_singleton, Nat.add_assoc, Nat.add_comm 1] at hr
      exact hr

theorem Picked.exists_joined {start : Beat} {beats : List Beat} {locks : Locks}
    {first : Duo Stance} (h : Picked c start beats locks) (hs : start.endState? = some first) :
    ∃ mss state, Joined start mss beats state := by
  induction h with
  | nil => exact ⟨[], first, .nil hs⟩
  | @snoc beats locks locks' b goal h hb ih =>
    obtain ⟨mss, state, hj⟩ := ih
    cases hb with
    | @intro state' ms hs' hd hp =>
      rw [hj.lastState?] at hs'
      cases hs'
      obtain ⟨next, hc, he⟩ := assemble_carries (beats.length + 1) (start :: beats) hd.startHands?
      exact ⟨mss ++ [ms], next, hj.snoc hd.startHands? hc he⟩

/-- The search for a slice picks all its beats, the last of which ends at the goal, or it gets stuck
before. -/
theorem slice_spec (start : Beat) (goal : Duo Location) (n : Nat) {beats : List Beat}
    {search : Search} (h : Picked c start beats search.locks) :
    Yields (slice source c start goal n beats search) fun r => ∃ locks,
      Picked c start r.1 locks ∧
      ((r.1.length = beats.length + n ∧
          (0 < n → (lastState? start r.1).map Duo.locations = some goal)) ∨
        (r.1.length < beats.length + n ∧
          ∃ goal? ∈ [none, some goal], Stuck c start goal? r.1 locks)) := by
  induction n generalizing beats search with
  | zero => exact .pure ⟨_, h, .inl ⟨rfl, fun h => absurd h (Nat.lt_irrefl 0)⟩⟩
  | succ n ih =>
    refine .bind (pick_spec source start beats _ search) ?_
    rintro ⟨b?, search'⟩ hb
    cases b? with
    | none =>
      refine .pure ⟨_, h, .inr ⟨by simp, _, ?_, hb⟩⟩
      split <;> simp
    | some b =>
      have hlen : (beats ++ [b]).length + n = beats.length + (n + 1) := by
        rw [List.length_append, List.length_singleton]
        omega
      cases n with
      | zero =>
        obtain ⟨state, next, -, hc, hg⟩ := Step.exists_carries hb
        refine .pure ⟨_, h.snoc hb, .inl ⟨hlen, fun _ => ?_⟩⟩
        simp [lastState?, hc.endState?, hg goal rfl]
      | succ n =>
        refine (ih (h.snoc hb)).mono fun r hr => ?_
        rw [hlen] at hr
        obtain ⟨locks, hp, ⟨hl, hg⟩ | hstuck⟩ := hr
        · exact ⟨locks, hp, .inl ⟨hl, fun _ => hg (Nat.succ_pos n)⟩⟩
        · exact ⟨locks, hp, .inr hstuck⟩

end KineticAlphabet.Generation
