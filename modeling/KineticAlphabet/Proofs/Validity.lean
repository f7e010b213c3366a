import KineticAlphabet.Proofs.Joining
/-!
What the validity check decides. It walks the beats and carries the first and the last state along,
past blank beats. A walk of some beats and one more is the walk of the beats and then a check of
that one, so by induction from the end it comes through exactly where every beat is numbered, sound
and joined to the nearest beat before it that is not blank, and the states it carries are those of
the sequence. Where it stops, the beats before came through, and what the violation tells is so.
-/
namespace KineticAlphabet

section

variable {ε α β : Type} {x : Except ε α} {f : α → Except ε β}

theorem bind_eq_ok_iff {r : β} : x >>= f = .ok r ↔ ∃ a, x = .ok a ∧ f a = .ok r := by
  cases x <;> simp [bind, Except.bind]

theorem bind_eq_error_iff {e : ε} :
    x >>= f = .error e ↔ x = .error e ∨ ∃ a, x = .ok a ∧ f a = .error e := by
  cases x <;> simp [bind, Except.bind]

theorem ok_of_toOption {r : α} (h : x.toOption = some r) : x = .ok r := by
  cases x with
  | error e => cases h
  | ok r' => exact congrArg Except.ok (Option.some.inj h)

end

/-- A beat with both motions, the end orientations of which are those that follow. -/
def Beat.Sound (b : Beat) : Prop := ∀ a, ∃ m, b.motions.get a = some m ∧ m.Consistent

/-- What can be wrong with the motions of a beat. -/
inductive Beat.Flaw (b : Beat) : Violation → Prop
  | missing {a : Actor} (h : b.motions.get a = none) : Flaw b (.missingMotion b.number)
  | inconsistent {a : Actor} {m : Motion} (hm : b.motions.get a = some m) (hc : ¬ m.Consistent) :
      Flaw b (.orientationInvariant b.number a)

namespace Beat

variable {b : Beat} {a : Actor} {m : Motion} {d : Duo Motion} {v : Violation}

theorem checkMotion_eq_ok_iff :
    b.checkMotion a = .ok m ↔ b.motions.get a = some m ∧ m.Consistent := by
  unfold checkMotion
  cases b.motions.get a with
  | none => simp
  | some m' =>
    by_cases hc : m'.Consistent
    · simp only [if_pos hc, Except.ok.injEq, Option.some.injEq]
      exact ⟨fun h => ⟨h, h ▸ hc⟩, fun h => h.1⟩
    · simp only [if_neg hc, Option.some.injEq, reduceCtorEq, false_iff, not_and]
      exact fun h => h ▸ hc

theorem flaw_of_checkMotion (h : b.checkMotion a = .error v) : b.Flaw v := by
  unfold checkMotion at h
  split at h
  case h_1 hn =>
    cases h
    exact .missing hn
  case h_2 m hm =>
    split at h
    case isTrue => cases h
    case isFalse hc =>
      cases h
      exact .inconsistent hm hc

theorem checkMotions_eq_ok_iff : b.checkMotions = .ok d ↔
    ∀ a, b.motions.get a = some (d.get a) ∧ (d.get a).Consistent := by
  rw [Actor.forall_iff, ← checkMotion_eq_ok_iff, ← checkMotion_eq_ok_iff, checkMotions,
    bind_eq_ok_iff]
  constructor
  · rintro ⟨blue, hb, h⟩
    obtain ⟨red, hr, h⟩ := bind_eq_ok_iff.mp h
    cases h
    exact ⟨hb, hr⟩
  · rintro ⟨hb, hr⟩
    exact ⟨d.blue, hb, bind_eq_ok_iff.mpr ⟨d.red, hr, rfl⟩⟩

theorem flaw_of_checkMotions (h : b.checkMotions = .error v) : b.Flaw v := by
  rcases bind_eq_error_iff.mp h with h | ⟨blue, -, h⟩
  · exact flaw_of_checkMotion h
  · rcases bind_eq_error_iff.mp h with h | ⟨red, -, h⟩
    · exact flaw_of_checkMotion h
    · cases h

theorem Sound.exists_checkMotions (h : b.Sound) : ∃ d, b.checkMotions = .ok d := by
  obtain ⟨blue, hb⟩ := h .blue
  obtain ⟨red, hr⟩ := h .red
  exact ⟨⟨blue, red⟩, checkMotions_eq_ok_iff.mpr (Actor.forall_iff.mpr ⟨hb, hr⟩)⟩

theorem sound_of_checkMotions (h : b.checkMotions = .ok d) : b.Sound :=
  fun a => ⟨d.get a, checkMotions_eq_ok_iff.mp h a⟩

theorem motions_of_checkMotions (h : b.checkMotions = .ok d) : b.motions = d.map some :=
  have h := checkMotions_eq_ok_iff.mp h
  Duo.ext (h .blue).1 (h .red).1

theorem startState?_of_checkMotions (h : b.checkMotions = .ok d) :
    b.startState? = some (d.map Motion.startStance) := by
  rw [startState?, motions_of_checkMotions h]
  rfl

theorem endState?_of_checkMotions (h : b.checkMotions = .ok d) :
    b.endState? = some (d.map Motion.endStance) := by
  rw [endState?, motions_of_checkMotions h]
  rfl

theorem carries_iff {before after : Duo Stance} : b.Carries before after ↔ b.isBlank = false ∧
    ∃ d, b.checkMotions = .ok d ∧ d.map Motion.startStance = before ∧
      d.map Motion.endStance = after := by
  constructor
  · exact fun h => ⟨h.notBlank, h.checkMotions⟩
  · rintro ⟨hb, d, hd, hs, he⟩
    exact ⟨hb, d, motions_of_checkMotions hd, fun a => (checkMotions_eq_ok_iff.mp hd a).2, hs, he⟩

theorem Sound.exists_carries (h : b.Sound) (hb : b.isBlank = false) :
    ∃ before after, b.Carries before after := by
  obtain ⟨d, hd⟩ := h.exists_checkMotions
  exact ⟨_, _, carries_iff.mpr ⟨hb, d, hd, rfl, rfl⟩⟩

theorem Carries.sound {before after : Duo Stance} (h : b.Carries before after) : b.Sound := by
  obtain ⟨d, hd, -⟩ := h.checkMotions
  exact sound_of_checkMotions hd

end Beat

namespace Duo

variable {α : Type} [DecidableEq α] {d e : Duo α} {a : Actor}

theorem firstDifference_eq_none_iff : d.firstDifference e = none ↔ d = e := by
  simp [firstDifference, Actor.all, Duo.ext_iff]

theorem ne_of_firstDifference (h : d.firstDifference e = some a) : d.get a ≠ e.get a := by
  simpa using List.find?_some h

end Duo

theorem Stance.map_eq_iff {before after : Duo Stance} :
    before.map location = after.map location ∧ before.map orientation = after.map orientation ↔
      before = after := by
  constructor
  · rintro ⟨hl, ho⟩
    rcases before with ⟨⟨⟩, ⟨⟩⟩
    rcases after with ⟨⟨⟩, ⟨⟩⟩
    cases hl
    cases ho
    rfl
  · rintro rfl
    exact ⟨rfl, rfl⟩

theorem checkContinuity_eq_ok_iff {n : Nat} {before after : Duo Stance} :
    checkContinuity n before after = .ok () ↔ before = after := by
  rw [← Stance.map_eq_iff, ← Duo.firstDifference_eq_none_iff, ← Duo.firstDifference_eq_none_iff]
  unfold checkContinuity
  cases (before.map Stance.location).firstDifference (after.map Stance.location) <;>
    cases (before.map Stance.orientation).firstDifference (after.map Stance.orientation) <;> simp

theorem checkContinuity_eq_error {n : Nat} {before after : Duo Stance} {v : Violation}
    (h : checkContinuity n before after = .error v) : ∃ a,
      (before.get a).location ≠ (after.get a).location ∧ v = .locationDiscontinuity n a ∨
      before.locations = after.locations ∧
        (before.get a).orientation ≠ (after.get a).orientation ∧
        v = .orientationDiscontinuity n a := by
  unfold checkContinuity at h
  split at h
  case h_1 a ha =>
    cases h
    exact ⟨a, .inl ⟨by simpa using Duo.ne_of_firstDifference ha, rfl⟩⟩
  case h_2 hl =>
    split at h
    case h_1 a ha =>
      cases h
      exact ⟨a, .inr ⟨Duo.firstDifference_eq_none_iff.mp hl,
        by simpa using Duo.ne_of_firstDifference ha, rfl⟩⟩
    case h_2 => cases h

/-- The number of the beat that a violation names. For a wrong number it is the one expected. -/
def Violation.beat? : Violation → Option Nat
  | .nonContiguous expected _ => some expected
  | .missingMotion beat | .orientationInvariant beat _ | .locationDiscontinuity beat _
  | .orientationDiscontinuity beat _ => some beat
  | .notClosed => none

namespace Sequence

/-- The state of the last beat that is not blank, or of the start position if there is none. -/
def lastState? (s : Sequence) : Option (Duo Stance) :=
  match s.beats.reverse.find? (!·.isBlank) with
  | some b => b.endState?
  | none => s.startPosition.bind Beat.endState?

/-- The state of the start position, or before the first beat that is not blank if there is none. -/
def firstState? (s : Sequence) : Option (Duo Stance) :=
  match s.startPosition with
  | some b => b.endState?
  | none => (s.beats.find? (!·.isBlank)).bind Beat.startState?

/-- What comes before the beat of a number. Before the start position, which has number zero, there
is nothing. -/
def before (s : Sequence) : Nat → Sequence
  | 0 => { s with startPosition := none, beats := [] }
  | n + 1 => { s with beats := s.beats.take n }

/-- The beats are numbered from one, and those that are not blank are sound and start in the state
that was last before them. So is the start position sound. -/
structure Connected (s : Sequence) : Prop where
  numbered : ∀ i b, s.beats[i]? = some b → b.number = i + 1
  start : ∀ b, s.startPosition = some b → b.Sound
  sound : ∀ b ∈ s.beats, b.isBlank = false → b.Sound
  continues : ∀ i b, s.beats[i]? = some b → b.isBlank = false →
    ∀ state, (s.before (i + 1)).lastState? = some state → b.startState? = some state

/-- A connected sequence. If it is to be closed, the hands end where they started. -/
structure Valid (s : Sequence) (closed : Bool) : Prop extends s.Connected where
  closes : closed = true → ∀ first last, s.firstState? = some first → s.lastState? = some last →
    first.locations = last.locations

/-- The beat of a number that has to have motions: the start position for zero, and no blank beat.
-/
def moving? (s : Sequence) : Nat → Option Beat
  | 0 => s.startPosition
  | n + 1 => s.beats[n]?.filter (!·.isBlank)

/-- What a violation tells about a sequence. -/
def Breaks (s : Sequence) : Violation → Prop
  | .nonContiguous expected found =>
    found ≠ expected ∧ ∃ b, s.beat? expected = some b ∧ b.number = found
  | .missingMotion n => ∃ b a, s.moving? n = some b ∧ b.motions.get a = none
  | .orientationInvariant n a => ∃ b m, s.moving? n = some b ∧ b.motions.get a = some m ∧
    ¬ m.Consistent
  | .locationDiscontinuity n a => ∃ b last next, s.moving? n = some b ∧
    (s.before n).lastState? = some last ∧ b.startState? = some next ∧
    (last.get a).location ≠ (next.get a).location
  | .orientationDiscontinuity n a => ∃ b last next, s.moving? n = some b ∧
    (s.before n).lastState? = some last ∧ b.startState? = some next ∧
    last.locations = next.locations ∧ (last.get a).orientation ≠ (next.get a).orientation
  | .notClosed => ∃ first last, s.firstState? = some first ∧ s.lastState? = some last ∧
    first.locations ≠ last.locations

def snoc (s : Sequence) (b : Beat) : Sequence := { s with beats := s.beats ++ [b] }

@[elab_as_elim] theorem snoc_induction {motive : Sequence → Prop}
    (nil : ∀ s, s.beats = [] → motive s) (snoc : ∀ s b, motive s → motive (s.snoc b))
    (s : Sequence) : motive s := by
  rcases s with ⟨name, start, beats, metadata⟩
  induction hn : beats.length generalizing beats with
  | zero => exact nil _ (List.length_eq_zero_iff.mp hn)
  | succ n ih =>
    rcases List.eq_nil_or_concat beats with rfl | ⟨bs, b, rfl⟩
    · cases hn
    · rw [List.concat_eq_append] at hn ⊢
      exact snoc ⟨name, start, bs, metadata⟩ b (ih bs (by simpa using hn))

variable {s : Sequence} {b : Beat} {n : Nat} {k k' : Option Course} {v : Violation}

theorem lastState?_snoc : (s.snoc b).lastState? =
    if b.isBlank then s.lastState? else b.endState? := by
  unfold lastState?
  cases hb : b.isBlank <;> simp [snoc, hb]

theorem firstState?_snoc : (s.snoc b).firstState? =
    match s.startPosition with
    | some start => start.endState?
    | none => ((s.beats.find? (!·.isBlank)).or (if b.isBlank then none else some b)).bind
        Beat.startState? := by
  unfold firstState? snoc
  cases s.startPosition <;> cases hb : b.isBlank <;> simp [List.find?_append, hb]

theorem firstState?_snoc_of_some {first : Duo Stance} (h : s.firstState? = some first) :
    (s.snoc b).firstState? = some first := by
  rw [firstState?_snoc]
  unfold firstState? at h
  cases hs : s.startPosition with
  | some start =>
    rw [hs] at h
    exact h
  | none =>
    rw [hs] at h
    obtain ⟨b', hb', hf⟩ := Option.bind_eq_some_iff.mp h
    rw [hb']
    exact hf

theorem firstState?_snoc_of_isBlank (hb : b.isBlank = true) :
    (s.snoc b).firstState? = s.firstState? := by
  rw [firstState?_snoc, firstState?, hb]
  simp only [if_true, Option.or_none]

theorem before_snoc {i : Nat} (hi : i ≤ s.length) : (s.snoc b).before (i + 1) = s.before (i + 1) :=
  congrArg (fun bs => { s with beats := bs }) (List.take_append_of_le_length hi)

theorem before_succ (hb : s.beats[n]? = some b) :
    s.before (n + 2) = (s.before (n + 1)).snoc b := by
  simp only [before, snoc, List.take_add_one, hb, Option.toList_some]

theorem before_length : s.before (s.length + 1) = s :=
  congrArg (fun bs => { s with beats := bs }) List.take_length

theorem getElem?_snoc {i : Nat} {b' : Beat} : (s.snoc b).beats[i]? = some b' ↔
    s.beats[i]? = some b' ∨ i = s.length ∧ b' = b := by
  have hlen : (s.snoc b).beats[i]? = if i < s.length then s.beats[i]? else [b][i - s.length]? :=
    List.getElem?_append
  rw [hlen]
  by_cases hi : i < s.length
  · rw [if_pos hi]
    exact ⟨.inl, fun h => h.resolve_right fun h => absurd h.1 (Nat.ne_of_lt hi)⟩
  · have hnone : s.beats[i]? = none := List.getElem?_eq_none (Nat.le_of_not_lt hi)
    rw [if_neg hi, hnone, List.getElem?_singleton]
    by_cases he : i = s.length
    · simp [he, eq_comm]
    · have hsub : i - s.length ≠ 0 := by omega
      simp [he, hsub]

/-- One more beat keeps a sequence connected just where it has the next number and, unless it is
blank, is sound and goes on from the last state. -/
theorem connected_snoc_iff : (s.snoc b).Connected ↔ s.Connected ∧ b.number = s.length + 1 ∧
    (b.isBlank = false → b.Sound ∧
      ∀ state, s.lastState? = some state → b.startState? = some state) := by
  have hlast : (s.snoc b).beats[s.length]? = some b := getElem?_snoc.mpr (.inr ⟨rfl, rfl⟩)
  have hbefore : (s.snoc b).before (s.length + 1) = s :=
    (before_snoc (Nat.le_refl _)).trans before_length
  have hlt : ∀ {i b'}, s.beats[i]? = some b' → i ≤ s.length := fun h =>
    Nat.le_of_lt (List.getElem?_eq_some_iff.mp h).1
  constructor
  · intro h
    refine ⟨⟨?_, h.start, ?_, ?_⟩, h.numbered _ b hlast, fun hb => ⟨?_, ?_⟩⟩
    · exact fun i b' hi => h.numbered i b' (getElem?_snoc.mpr (.inl hi))
    · exact fun b' hb' => h.sound b' (List.mem_append_left _ hb')
    · intro i b' hi hb' state hstate
      rw [← before_snoc (b := b) (hlt hi)] at hstate
      exact h.continues i b' (getElem?_snoc.mpr (.inl hi)) hb' state hstate
    · exact h.sound b (List.mem_append_right _ (List.mem_singleton.mpr rfl)) hb
    · intro state hstate
      rw [← hbefore] at hstate
      exact h.continues _ b hlast hb state hstate
  · rintro ⟨h, hn, hstep⟩
    refine ⟨?_, h.start, ?_, ?_⟩
    · intro i b' hi
      rcases getElem?_snoc.mp hi with hi | ⟨rfl, rfl⟩
      · exact h.numbered i b' hi
      · exact hn
    · intro b' hb' hblank
      rcases List.mem_append.mp hb' with hb' | hb'
      · exact h.sound b' hb' hblank
      · rw [List.mem_singleton.mp hb'] at hblank ⊢
        exact (hstep hblank).1
    · intro i b' hi hblank state hstate
      rcases getElem?_snoc.mp hi with hi | ⟨rfl, rfl⟩
      · rw [before_snoc (hlt hi)] at hstate
        exact h.continues i b' hi hblank state hstate
      · rw [hbefore] at hstate
        exact (hstep hblank).2 state hstate

/-- What the check carries after all beats, before it looks at closure. -/
def walk (s : Sequence) : Except Violation (Option Course) :=
  startCourse s.startPosition >>= fun k => checkBeats 1 k s.beats

theorem walk_snoc : (s.snoc b).walk = s.walk >>= fun k => checkBeat (s.length + 1) k b := by
  have hsnoc : ∀ k, checkBeats 1 k (s.snoc b).beats =
      checkBeats 1 k s.beats >>= fun k => checkBeat (s.length + 1) k b := by
    intro k
    rw [Nat.add_comm]
    exact checkBeats_snoc 1 k s.beats b
  unfold walk
  simp only [hsnoc]
  exact (bind_assoc _ _ _).symm

theorem validate_of_walk {closed : Bool} (h : s.walk = .ok k) : s.validate closed =
    if closed && k.any fun c => c.first.locations ≠ c.last.locations then .error .notClosed
    else .ok () := by
  obtain ⟨k₀, hk₀, hk⟩ := bind_eq_ok_iff.mp h
  simp only [validate, hk₀, hk, bind, Except.bind]
  cases k with
  | none => cases closed <;> rfl
  | some c => rfl

theorem validate_of_walk_eq_error {closed : Bool} (h : s.walk = .error v) :
    s.validate closed = .error v := by
  rcases bind_eq_error_iff.mp h with hk₀ | ⟨k₀, hk₀, hk⟩
  · simp only [validate, hk₀, bind, Except.bind]
  · simp only [validate, hk₀, hk, bind, Except.bind]

/-- The check of a beat comes through where it has its number and, unless it is blank, leads on from
the last state. -/
theorem checkBeat_eq_ok_iff : checkBeat n k b = .ok k' ↔ b.number = n ∧
    (b.isBlank = true ∧ k' = k ∨ ∃ before after, b.Carries before after ∧
      (∀ c, k = some c → c.last = before) ∧
      k' = some ⟨(k.map Course.first).getD before, after⟩) := by
  constructor
  · intro h
    unfold checkBeat at h
    split at h
    case isTrue => cases h
    case isFalse hn =>
      refine ⟨Decidable.not_not.mp hn, ?_⟩
      split at h
      case isTrue hb =>
        cases h
        exact .inl ⟨hb, rfl⟩
      case isFalse hb =>
        obtain ⟨d, hd, h⟩ := bind_eq_ok_iff.mp h
        have hcarries := Beat.carries_iff.mpr ⟨Bool.eq_false_iff.mpr hb, d, hd, rfl, rfl⟩
        refine .inr ⟨_, _, hcarries, ?_⟩
        cases k with
        | none =>
          rw [← Except.ok.inj h]
          exact ⟨fun _ hk => absurd hk (Option.some_ne_none _).symm, rfl⟩
        | some c =>
          obtain ⟨⟨⟩, hc, he⟩ := bind_eq_ok_iff.mp h
          rw [← Except.ok.inj he]
          exact ⟨fun _ hk => Option.some.inj hk ▸ checkContinuity_eq_ok_iff.mp hc, rfl⟩
  · rintro ⟨rfl, ⟨hb, rfl⟩ | ⟨before, after, hcarries, hlast, rfl⟩⟩
    · simp [checkBeat, hb]
    · cases k with
      | none =>
        obtain ⟨hb, d, hd, rfl, rfl⟩ := Beat.carries_iff.mp hcarries
        simp only [checkBeat, ne_eq, not_true, if_false, hb, Bool.false_eq_true, hd]
        rfl
      | some c =>
        obtain rfl := hlast c rfl
        exact hcarries.checkBeat c.first

/-- Where the check of a beat fails. -/
theorem checkBeat_eq_error (h : checkBeat n k b = .error v) :
    b.number ≠ n ∧ v = .nonContiguous n b.number ∨
    b.number = n ∧ b.isBlank = false ∧ (b.checkMotions = .error v ∨
      ∃ d c, b.checkMotions = .ok d ∧ k = some c ∧
        checkContinuity n c.last (d.map Motion.startStance) = .error v) := by
  unfold checkBeat at h
  split at h
  case isTrue hn =>
    cases h
    exact .inl ⟨hn, rfl⟩
  case isFalse hn =>
    rw [ne_eq, Decidable.not_not] at hn
    refine .inr ⟨hn, ?_⟩
    split at h
    case isTrue => cases h
    case isFalse hb =>
      refine ⟨Bool.eq_false_iff.mpr hb, ?_⟩
      rcases bind_eq_error_iff.mp h with h | ⟨d, hd, h⟩
      · exact .inl h
      · cases k with
        | none => cases h
        | some c =>
          rcases bind_eq_error_iff.mp h with h | ⟨_, _, h⟩
          · exact .inr ⟨d, c, hd, rfl, hn ▸ h⟩
          · cases h

theorem Connected.firstState?_snoc (h : s.Connected) (hn : s.firstState? = none)
    (hb : b.isBlank = false) : (s.snoc b).firstState? = b.startState? := by
  rw [Sequence.firstState?_snoc]
  unfold firstState? at hn
  cases hs : s.startPosition with
  | some start =>
    obtain ⟨d, hd⟩ := (h.start start hs).exists_checkMotions
    simp [hs, Beat.endState?_of_checkMotions hd] at hn
  | none =>
    cases hf : s.beats.find? (!·.isBlank) with
    | some b' =>
      have hb' := List.find?_some hf
      obtain ⟨d, hd⟩ := (h.sound b' (List.mem_of_find?_eq_some hf)
        (by simpa using hb')).exists_checkMotions
      simp [hs, hf, Beat.startState?_of_checkMotions hd] at hn
    | none => simp [hb]

theorem walk_of_beats_eq_nil (hnil : s.beats = []) : s.walk = startCourse s.startPosition := by
  rw [walk, hnil]
  cases startCourse s.startPosition <;> rfl

/-- Without beats all depends on the start position. -/
theorem connected_of_beats_eq_nil (hnil : s.beats = [])
    (hs : ∀ b, s.startPosition = some b → b.Sound) : s.Connected := by
  refine ⟨?_, hs, ?_, ?_⟩ <;> simp [hnil]

/-- Where the check comes through all beats they are connected, and it carries their first and last
state. -/
theorem connected_of_walk (h : s.walk = .ok k) : s.Connected ∧
    k.map Course.first = s.firstState? ∧ k.map Course.last = s.lastState? := by
  induction s using snoc_induction generalizing k with
  | nil s hnil =>
    rw [walk_of_beats_eq_nil hnil] at h
    cases hs : s.startPosition with
    | none =>
      rw [hs] at h
      cases h
      refine ⟨connected_of_beats_eq_nil hnil (by simp [hs]), ?_, ?_⟩
      · simp [firstState?, hs, hnil]
      · simp [lastState?, hs, hnil]
    | some start =>
      rw [hs] at h
      obtain ⟨d, hd, h⟩ := bind_eq_ok_iff.mp h
      have he := Beat.endState?_of_checkMotions hd
      cases h
      refine ⟨connected_of_beats_eq_nil hnil ?_, ?_, ?_⟩
      · intro b hb
        rw [hs] at hb
        cases hb
        exact Beat.sound_of_checkMotions hd
      · simp [firstState?, hs, he]
      · simp [lastState?, hs, hnil, he]
  | snoc s b ih =>
    rw [walk_snoc] at h
    obtain ⟨k₀, hk₀, h⟩ := bind_eq_ok_iff.mp h
    obtain ⟨hcon, hfirst, hlast⟩ := ih hk₀
    obtain ⟨hn, ⟨hb, rfl⟩ | ⟨before, after, hcarries, hgo, rfl⟩⟩ := checkBeat_eq_ok_iff.mp h
    · refine ⟨connected_snoc_iff.mpr ⟨hcon, hn, fun hb' => ?_⟩, ?_, ?_⟩
      · rw [hb] at hb'
        cases hb'
      · rw [firstState?_snoc_of_isBlank hb, hfirst]
      · rw [lastState?_snoc, hb, if_pos rfl, hlast]
    · refine ⟨connected_snoc_iff.mpr ⟨hcon, hn, fun _ => ⟨hcarries.sound, ?_⟩⟩, ?_, ?_⟩
      · intro state hstate
        rw [← hlast] at hstate
        obtain ⟨c, hc, rfl⟩ := Option.map_eq_some_iff.mp hstate
        rw [hgo c hc]
        exact hcarries.startState?
      · cases k₀ with
        | some c => exact (firstState?_snoc_of_some hfirst.symm).symm
        | none =>
          -- only blank beats came before, so this one gives the first state
          rw [hcon.firstState?_snoc hfirst.symm hcarries.notBlank, hcarries.startState?]
          rfl
      · rw [lastState?_snoc, hcarries.notBlank, hcarries.endState?]
        rfl

/-- The check comes through all beats of a connected sequence. -/
theorem Connected.exists_walk (h : s.Connected) : ∃ k, s.walk = .ok k := by
  induction s using snoc_induction with
  | nil s hnil =>
    rw [walk_of_beats_eq_nil hnil]
    cases hs : s.startPosition with
    | none => exact ⟨none, rfl⟩
    | some start =>
      obtain ⟨d, hd⟩ := (h.start start hs).exists_checkMotions
      exact ⟨_, bind_eq_ok_iff.mpr ⟨d, hd, rfl⟩⟩
  | snoc s b ih =>
    obtain ⟨hcon, hn, hstep⟩ := connected_snoc_iff.mp h
    obtain ⟨k, hk⟩ := ih hcon
    obtain ⟨-, -, hlast⟩ := connected_of_walk hk
    rw [walk_snoc, hk]
    cases hb : b.isBlank with
    | true => exact ⟨k, checkBeat_eq_ok_iff.mpr ⟨hn, .inl ⟨hb, rfl⟩⟩⟩
    | false =>
      obtain ⟨hsound, hgo⟩ := hstep hb
      obtain ⟨before, after, hcarries⟩ := hsound.exists_carries hb
      refine ⟨_, checkBeat_eq_ok_iff.mpr ⟨hn, .inr ⟨before, after, hcarries, ?_, rfl⟩⟩⟩
      rintro c rfl
      have hstart := hgo c.last hlast.symm
      rw [hcarries.startState?] at hstart
      exact (Option.some.inj hstart).symm

/-- The check decides validity. -/
theorem validate_eq_ok_iff {closed : Bool} : s.validate closed = .ok () ↔ s.Valid closed := by
  constructor
  · intro h
    cases hk : s.walk with
    | error v =>
      rw [validate_of_walk_eq_error hk] at h
      cases h
    | ok k =>
      obtain ⟨hcon, hfirst, hlast⟩ := connected_of_walk hk
      refine ⟨hcon, fun hc first last hf hl => ?_⟩
      rw [← hfirst] at hf
      rw [← hlast] at hl
      obtain ⟨c, rfl, rfl⟩ := Option.map_eq_some_iff.mp hf
      cases hl
      rw [validate_of_walk hk] at h
      simpa [hc] using h
  · intro h
    obtain ⟨k, hk⟩ := h.exists_walk
    obtain ⟨-, hfirst, hlast⟩ := connected_of_walk hk
    rw [validate_of_walk hk, if_neg]
    rw [Bool.and_eq_true, Option.any_eq_true]
    rintro ⟨hc, c, rfl, hne⟩
    exact of_decide_eq_true hne (h.closes hc _ _ hfirst.symm hlast.symm)

/-- Where the check stops, the beats before came through. -/
theorem walk_eq_error (h : s.walk = .error v) : startCourse s.startPosition = .error v ∨
    ∃ i b k, s.beats[i]? = some b ∧ (s.before (i + 1)).walk = .ok k ∧
      checkBeat (i + 1) k b = .error v := by
  induction s using snoc_induction with
  | nil s hnil =>
    rw [walk_of_beats_eq_nil hnil] at h
    exact .inl h
  | snoc s b ih =>
    rw [walk_snoc] at h
    rcases bind_eq_error_iff.mp h with h | ⟨k, hk, h⟩
    · refine (ih h).imp_right ?_
      rintro ⟨i, b', k, hi, hk, hb'⟩
      refine ⟨i, b', k, getElem?_snoc.mpr (.inl hi), ?_, hb'⟩
      rw [before_snoc (Nat.le_of_lt (List.getElem?_eq_some_iff.mp hi).1)]
      exact hk
    · refine .inr ⟨s.length, b, k, getElem?_snoc.mpr (.inr ⟨rfl, rfl⟩), ?_, h⟩
      rw [before_snoc (Nat.le_refl _), before_length]
      exact hk

/-- What is wrong with the motions of a beat is told with its number. -/
theorem breaks_of_checkMotions (hb : s.moving? n = some b) (hn : b.number = n)
    (h : b.checkMotions = .error v) : s.Breaks v ∧ v.beat? = some n := by
  subst hn
  cases Beat.flaw_of_checkMotions h with
  | missing hnone => exact ⟨⟨b, _, hb, hnone⟩, rfl⟩
  | inconsistent hm hc => exact ⟨⟨b, _, hb, hm, hc⟩, rfl⟩

/-- So is what is wrong with a beat after others that the check came through. -/
theorem breaks_of_checkBeat {i : Nat} (hi : s.beats[i]? = some b)
    (hk : (s.before (i + 1)).walk = .ok k) (h : checkBeat (i + 1) k b = .error v) :
    s.Breaks v ∧ v.beat? = some (i + 1) := by
  rcases checkBeat_eq_error h with ⟨hn, rfl⟩ | ⟨hn, hblank, h⟩
  · exact ⟨⟨hn, b, hi, rfl⟩, rfl⟩
  · have hb : s.moving? (i + 1) = some b := by simp [moving?, hi, hblank]
    rcases h with h | ⟨d, c, hd, rfl, hcontinues⟩
    · exact breaks_of_checkMotions hb hn h
    · obtain ⟨-, -, hlast⟩ := connected_of_walk hk
      have hstart := Beat.startState?_of_checkMotions hd
      obtain ⟨a, ⟨hne, rfl⟩ | ⟨hl, hne, rfl⟩⟩ := checkContinuity_eq_error hcontinues
      · exact ⟨⟨b, _, _, hb, hlast.symm, hstart, hne⟩, rfl⟩
      · exact ⟨⟨b, _, _, hb, hlast.symm, hstart, hl, hne⟩, rfl⟩

/-- A violation on the way names a beat. What comes before that beat passes the check, and what ends
with it fails like the whole. -/
theorem breaks_of_walk (h : s.walk = .error v) (hs : ∀ b, s.startPosition = some b → b.number = 0) :
    s.Breaks v ∧ ∃ n ≤ s.length, v.beat? = some n ∧ (s.before n).validate false = .ok () ∧
      ∀ closed, (s.before (n + 1)).validate closed = .error v := by
  rcases walk_eq_error h with h | ⟨i, b, k, hi, hk, h⟩
  · cases hstart : s.startPosition with
    | none =>
      rw [hstart] at h
      cases h
    | some start =>
      have hd : start.checkMotions = .error v := by
        rw [hstart] at h
        exact (bind_eq_error_iff.mp h).resolve_right (by rintro ⟨_, -, h⟩; cases h)
      obtain ⟨hbreaks, hn⟩ := breaks_of_checkMotions (n := 0) hstart (hs start hstart) hd
      refine ⟨hbreaks, 0, Nat.zero_le _, hn, rfl, fun closed => validate_of_walk_eq_error ?_⟩
      have hnil : (s.before 1).beats = [] := rfl
      rw [walk_of_beats_eq_nil hnil]
      exact h
  · obtain ⟨hbreaks, hn⟩ := breaks_of_checkBeat hi hk h
    refine ⟨hbreaks, i + 1, (List.getElem?_eq_some_iff.mp hi).1, hn, ?_, fun closed => ?_⟩
    · rw [validate_of_walk hk]
      rfl
    · apply validate_of_walk_eq_error
      have hlen : (s.before (i + 1)).length = i := by
        have hlt := (List.getElem?_eq_some_iff.mp hi).1
        exact List.length_take_of_le (Nat.le_of_lt hlt)
      rw [before_succ hi, walk_snoc, hk, hlen]
      exact h

/-- The check passes the valid sequences. Where it fails, what the violation tells is so, and if the
start position has number zero it is the first one: what comes before the beat that is named passes
the check, and what ends with that beat fails in the same way. No beat is named only where the whole
passes but does not close. -/
theorem validate_decides (s : Sequence) (closed : Bool) :
    (s.validate closed = .ok () ↔ s.Valid closed) ∧
    ∀ v, s.validate closed = .error v → (∀ b, s.startPosition = some b → b.number = 0) →
      s.Breaks v ∧
      (∀ n, v.beat? = some n → n ≤ s.length ∧ (s.before n).validate false = .ok () ∧
        ∀ closed, (s.before (n + 1)).validate closed = .error v) ∧
      (v.beat? = none → closed = true ∧ s.validate false = .ok ()) := by
  refine ⟨validate_eq_ok_iff, fun v h hs => ?_⟩
  cases hk : s.walk with
  | error v' =>
    rw [validate_of_walk_eq_error hk] at h
    cases h
    obtain ⟨hbreaks, n, hn, hv, hbefore, hafter⟩ := breaks_of_walk hk hs
    rw [hv]
    refine ⟨hbreaks, fun n' hn' => ?_, nofun⟩
    cases hn'
    exact ⟨hn, hbefore, hafter⟩
  | ok k =>
    obtain ⟨-, hfirst, hlast⟩ := connected_of_walk hk
    rw [validate_of_walk hk] at h
    split at h
    case isFalse => cases h
    case isTrue hc =>
      cases h
      rw [Bool.and_eq_true, Option.any_eq_true] at hc
      obtain ⟨hc, c, rfl, hne⟩ := hc
      refine ⟨⟨_, _, hfirst.symm, hlast.symm, of_decide_eq_true hne⟩, nofun, fun _ => ⟨hc, ?_⟩⟩
      rw [validate_of_walk hk]
      rfl

/-- A blank beat, then blue goes round a quarter, and in the third beat it starts where it was
before. -/
def jumping : Sequence :=
  let quarter : Motions := ⟨some (.shift .pro .n .e .inward), some (.staticAt .s .inward)⟩
  { name := "jumping"
    startPosition := some (.ofStances ⟨⟨.n, .inward⟩, ⟨.s, .inward⟩⟩ none)
    beats := [.blank 1, { Beat.empty 2 with motions := quarter },
      { Beat.empty 3 with motions := quarter }]
    metadata := .empty }

theorem validate_decides_jumping :
    jumping.validate true = .error (.locationDiscontinuity 3 .blue) ∧
    jumping.Breaks (.locationDiscontinuity 3 .blue) ∧ (jumping.before 3).Valid false := by
  have hfails : jumping.validate true = .error (.locationDiscontinuity 3 .blue) := rfl
  obtain ⟨hbreaks, hbefore, -⟩ := (validate_decides jumping true).2 _ hfails (by
    intro b hb
    cases hb
    rfl)
  obtain ⟨-, hvalid, -⟩ := hbefore 3 rfl
  exact ⟨hfails, hbreaks, (validate_decides (jumping.before 3) false).1.mp hvalid⟩

end Sequence

end KineticAlphabet
