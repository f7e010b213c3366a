import KineticAlphabet.Proofs.Building
/-!
Soundness of generation. A configuration is refused exactly when its check refuses it. Otherwise a
sequence comes out that is well made, or the report of a search that found nothing: the validity
check at the end has nothing to refuse.
-/
namespace KineticAlphabet.Generation

open KineticAlphabet.Random

/-- What a generated sequence is like. It has a start position and as many beats as were asked for,
numbered from one. In each of them both actors move, with the end orientations that follow, from
where the beat before or the start position ended. A circular one ends where the hands started. -/
structure WellMade (c : Config) (start : Beat) (q : Sequence) : Prop where
  started : q.startPosition = some start ∧ ∃ first, start.endState? = some first
  length_eq : q.beats.length = c.length
  numbered : ∀ (i : Nat) (b : Beat), q.beats[i]? = some b → b.number = i + 1
  full : ∀ b ∈ q.beats, b.isBlank = false ∧ ∃ ms : Duo Motion, b.motions = ms.map some ∧
    ∀ a, (ms.get a).endOrientation = (ms.get a).startOrientation.after (ms.get a).motionType
      (ms.get a).turns (ms.get a).spin
  continues : ∀ (i : Nat) (b : Beat), q.beats[i]? = some b → ∃ before, b.startState? = some before ∧
    (start :: q.beats)[i]?.bind Beat.endState? = some before
  closed : c.mode = .circular → ∃ first last, start.endState? = some first ∧
    q.beats.getLast?.bind Beat.endState? = some last ∧ last.locations = first.locations

variable {c : Config} {start : Beat} {beats : List Beat}

theorem Built.wellMade (h : Built c start beats) (hc : c.Admitted) (hs : Started c start) :
    WellMade c start (finish c start beats) := by
  obtain ⟨mss, first, last, hj, hf, hl, hclosed⟩ := h.exists_joined hc hs
  have hb : (finish c start beats).beats = beats := by rw [finish_beats, h.renumber_eq hc hs]
  constructor
  · rw [finish_startPosition, hs.number_eq]
    exact ⟨rfl, first, hf⟩
  · rw [hb, hl]
  · intro i b hi
    rw [hb] at hi
    exact (hj.getElem? hi).1
  · intro b hmem
    rw [hb] at hmem
    obtain ⟨i, hi⟩ := List.mem_iff_getElem?.mp hmem
    obtain ⟨-, before, after, hcarries, -⟩ := hj.getElem? hi
    obtain ⟨ms, hms, hcons, -, -⟩ := hcarries.motions
    exact ⟨hcarries.notBlank, ms, hms, hcons⟩
  · intro i b hi
    rw [hb] at hi ⊢
    obtain ⟨-, before, after, hcarries, hbefore⟩ := hj.getElem? hi
    exact ⟨before, hcarries.startState?, hbefore⟩
  · intro hm
    refine ⟨first, last, hf, ?_, hclosed hm⟩
    rw [hb]
    have hlast := hj.getLast?
    have hpos := hc.length_pos
    cases hne : beats.getLast? with
    | none =>
      rw [List.getLast?_eq_none_iff] at hne
      simp [hne] at hl
      omega
    | some b => simpa [List.getLast?_cons, hne] using hlast

/-- Whatever is drawn, a configuration is refused exactly when its check refuses it; otherwise a
well made sequence comes out, or a report that the search found nothing. -/
theorem generate_sound {σ : Type} (source : Source σ) (c : Config) (s : σ) :
    (∀ fault, ((generate source c).run s).1 = .error (.invalidConfig fault) ↔
      c.check = .error fault) ∧
    (c.check = .ok () →
      (∃ beat attempts reached, ((generate source c).run s).1 =
        .error (.exhausted beat attempts reached)) ∨
      ∃ q, ((generate source c).run s).1 = .ok q) ∧
    (∀ violation, ((generate source c).run s).1 ≠ .error (.invalidSequence violation)) ∧
    (∀ beat, ((generate source c).run s).1 ≠ .error (.missingMotions beat)) ∧
    ∀ q, ((generate source c).run s).1 = .ok q → ∃ start, WellMade c start q := by
  have hr : Outcome c ((generate source c).run s).1 := generate_spec source s
  generalize ((generate source c).run s).1 = r at hr ⊢
  cases hr with
  | refused h =>
    refine ⟨fun fault => ?_, fun hc => ?_, by simp, by simp, by simp⟩
    · simp [h]
    · rw [h] at hc
      cases hc
  | @built start beats hc hs hb =>
    refine ⟨fun fault => ?_, fun _ => .inr ⟨_, rfl⟩, by simp, by simp, fun q hq => ?_⟩
    · simp [hc]
    · rw [← Except.ok.inj hq]
      exact ⟨start, hb.wellMade (Config.check_eq_ok_iff.mp hc) hs⟩
  | unbuilt hc hs hu =>
    refine ⟨fun fault => ?_, fun _ => .inl ⟨_, _, _, rfl⟩, ?_, ?_, ?_⟩
    all_goals simp [hc, exhausted]

end KineticAlphabet.Generation
