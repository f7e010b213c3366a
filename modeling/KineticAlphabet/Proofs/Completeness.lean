import KineticAlphabet.Proofs.Building
import KineticAlphabet.Random.ChaCha
/-!
Generation without constraints. With random props there are no locks, and without excluded letters
nothing is refused. The hands never leave the grid, and from any two of its points the catalog
offers every letter type and every pair of end points. So no pick gets stuck, and a sequence comes
out.
-/
namespace KineticAlphabet.Generation

open KineticAlphabet.Random

variable {c : Config} {start : Beat} {beats : List Beat} {locks : Locks}
  {goal : Option (Duo Location)}

/-- With random props nobody is ever locked. -/
theorem Picked.locks_eq_free (h : Picked c start beats locks) (hr : c.continuity = .random) :
    locks = .free := by
  induction h with
  | nil => rfl
  | snoc h hb ih =>
    cases hb with
    | intro hs hd hp =>
      simpa [Locks.record, hr] using ih

/-- Drawn motions end on the grid. -/
theorem Drawn.grid_endHands {hands after : Duo Location} {ms : Motions}
    (h : Drawn c locks hands goal ms) (he : ms.endHands? = some after) (a : Actor) :
    (after.get a).grid = c.grid := by
  cases h with
  | @intro plain dressed l hc hd =>
    have ha : dressed.map Motion.endLocation = after := Option.some.inj he
    rw [← ha, Duo.get_map, (hd a).endLocation]
    exact hc.grid_endLocation a

theorem Started.grid_locations {first : Duo Stance} (h : Started c start)
    (hf : start.endState? = some first) (a : Actor) : (first.locations.get a).grid = c.grid := by
  obtain ⟨hands, hg, -, hc⟩ := h.exists_carries
  rw [hc.endState?] at hf
  cases hf
  exact hg a

/-- Picking never leaves the grid. -/
theorem Picked.exists_state (h : Picked c start beats locks) (hs : Started c start) :
    ∃ state, lastState? start beats = some state ∧
      ∀ a, (state.locations.get a).grid = c.grid := by
  cases h with
  | nil =>
    obtain ⟨first, hf⟩ := hs.exists_endState?
    exact ⟨first, hf, hs.grid_locations hf⟩
  | @snoc beats locks locks' b goal h hb =>
    cases hb with
    | @intro state ms hs' hd hp =>
      obtain ⟨next, hc, he⟩ := assemble_carries (beats.length + 1) (start :: beats) hd.startHands?
      refine ⟨next, ?_, hd.grid_endHands he⟩
      simp [lastState?, hc.endState?]

/-- Where no letter is excluded, something may be drawn from any two points of the grid. -/
theorem exists_candidate {hands : Duo Location} (hc : c.Admitted) (hx : c.excludedLetters = [])
    (hg : ∀ a, (hands.get a).grid = c.grid)
    (hgoal : ∀ g, goal = some g → c.mode = .circular ∧ ∀ a, (g.get a).grid = c.grid) :
    ∃ ms l, Candidate c hands goal ms l := by
  have hallowed : ∀ l : Letter, l.text ∉ c.excludedLetters := by simp [hx]
  cases goal with
  | some g =>
    obtain ⟨hm, hgrid⟩ := hgoal g rfl
    obtain ⟨ms, l, ho, he⟩ := Catalog.exists_offers_endLocation hg hgrid
    refine ⟨ms, l, ho, hallowed l, fun h => ?_, fun g' h => ?_⟩
    · rw [hm] at h
      cases h
    · cases h
      exact he
  | none =>
    have ht : ∃ t, c.mode = .freeform → t ∈ c.letterTypes := by
      cases htypes : c.letterTypes with
      | nil => exact ⟨.type1, fun hm => absurd htypes (hc.types hm)⟩
      | cons t ts => exact ⟨t, fun _ => List.mem_cons_self⟩
    obtain ⟨t, ht⟩ := ht
    obtain ⟨ms, l, ho, rfl⟩ := Catalog.exists_offers_letterType hg t
    exact ⟨ms, l, ho, hallowed l, ht, nofun⟩

/-- Without constraints no pick gets stuck. -/
theorem Picked.not_stuck (h : Picked c start beats locks) (hs : Started c start)
    (hc : c.Admitted) (hr : c.continuity = .random) (hx : c.excludedLetters = [])
    (hgoal : ∀ g, goal = some g → c.mode = .circular ∧ ∀ a, (g.get a).grid = c.grid) :
    ¬ Stuck c start goal beats locks := by
  obtain ⟨state, hstate, hg⟩ := h.exists_state hs
  intro hstuck
  cases hstuck with
  | lost hlost =>
    rw [hstate] at hlost
    cases hlost
  | noCandidate hstate' hnone =>
    rw [hstate] at hstate'
    cases hstate'
    obtain ⟨ms, l, hcand⟩ := exists_candidate hc hx hg hgoal
    exact hnone ms l hcand
  | noTries hzero => exact Nat.ne_of_gt hc.attempts_pos hzero
  | refused hstate' hd hp =>
    rw [h.locks_eq_free hr, Locks.permits_free] at hp
    cases hp

/-- Then something can always be built. -/
theorem not_unbuilt (hs : Started c start) (hc : c.Admitted) (hr : c.continuity = .random)
    (hx : c.excludedLetters = []) : ¬ Unbuilt c start := by
  intro hu
  cases hu with
  | freely hm hp h =>
    refine hp.not_stuck hs hc hr hx ?_ h
    simp
  | @circled first hm hf h =>
    cases h with
    | @stuck part locks goal? hp hgoal? h =>
      refine hp.not_stuck hs hc hr hx ?_ h
      rintro g rfl
      simp only [List.mem_cons, reduceCtorEq, List.not_mem_nil, or_false, false_or,
        Option.some.injEq] at hgoal?
      rw [hgoal?]
      exact ⟨hm, c.cap.grid_onHands c.slice (hs.grid_locations hf)⟩
    | @excluded part all last b hj hb h =>
      cases hl : b.letter <;> simp [isExcluded, hl, hx] at h

/-- So whatever is drawn, a sequence comes out. -/
theorem exists_sequence {σ : Type} (source : Source σ) (hc : c.check = .ok ())
    (hr : c.continuity = .random) (hx : c.excludedLetters = []) (s : σ) :
    ∃ q, ((generate source c).run s).1 = .ok q := by
  have h : Outcome c ((generate source c).run s).1 := generate_spec source s
  generalize ((generate source c).run s).1 = r at h ⊢
  cases h with
  | refused h =>
    rw [h] at hc
    cases hc
  | built => exact ⟨_, rfl⟩
  | unbuilt _ hs hu => exact absurd hu (not_unbuilt hs (Config.check_eq_ok_iff.mp hc) hr hx)

/-- With random props and no excluded letters a sequence comes out, whatever is drawn. For picking
never leaves the grid, and from any two of its points the catalog goes on with every letter type,
and in one beat to wherever the CAP type takes any two points. -/
theorem generate_complete {σ : Type} (source : Source σ) (hc : c.check = .ok ())
    (hr : c.continuity = .random) (hx : c.excludedLetters = []) (s : σ) :
    (∃ q, ((generate source c).run s).1 = .ok q) ∧
    (∀ start beats locks, Started c start → Picked c start beats locks →
      ∃ state, lastState? start beats = some state ∧
        ∀ a, (state.locations.get a).grid = c.grid) ∧
    ∀ hands : Duo Location, (∀ a, (hands.get a).grid = c.grid) →
      (∀ t, ∃ p ∈ Catalog.startingAt c.grid hands, p.letterType = t) ∧
      ∀ first : Duo Location, (∀ a, (first.get a).grid = c.grid) →
        ∃ p ∈ Catalog.startingAt c.grid hands,
          p.motions.endHands? = some (c.cap.onHands c.slice first) := by
  refine ⟨exists_sequence source hc hr hx s, fun start beats locks hs hp => hp.exists_state hs,
    fun hands hg => ⟨?_, ?_⟩⟩
  · intro t
    obtain ⟨ms, l, ho, rfl⟩ := Catalog.exists_offers_letterType hg t
    obtain ⟨p, hp, -, hl⟩ := ho.exists_mem
    exact ⟨p, hp, Pictograph.letterType_eq hl⟩
  · intro first hfirst
    obtain ⟨ms, l, ho, he⟩ :=
      Catalog.exists_offers_endLocation hg (c.cap.grid_onHands c.slice hfirst)
    obtain ⟨p, hp, hm, -⟩ := ho.exists_mem
    refine ⟨p, hp, ?_⟩
    rw [hm, ← he]
    rfl

/-- A long circular sequence with half turns and floats comes out of the first seed. -/
theorem generate_complete_advanced :
    (Config.advanced.withCap .mirroredSwapped .halved).check = .ok () ∧
      ∃ q, ((generate ChaCha.source (Config.advanced.withCap .mirroredSwapped .halved)).run
        (.ofSeed 0)).1 = .ok q := by
  have hc : (Config.advanced.withCap .mirroredSwapped .halved).check = .ok () :=
    Config.check_eq_ok_iff.mpr (Config.admitted_advanced_halved .mirroredSwapped)
  exact ⟨hc, (generate_complete ChaCha.source hc rfl rfl (.ofSeed 0)).1⟩

end KineticAlphabet.Generation
