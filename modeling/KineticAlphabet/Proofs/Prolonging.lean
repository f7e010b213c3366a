import KineticAlphabet.Proofs.Exhaustion
/-!
Freeform generations of different extent. Only the number of picks depends on the length, and only
the number of draws of one pick depends on the attempts allowed. So two generations from one state
of a source stay in step: the shorter one brings the first beats of the longer one, and more
attempts change nothing where enough were allowed.
-/
namespace KineticAlphabet

theorem Sequence.renumber_take (bs : List Beat) (n : Nat) :
    renumber (bs.take n) = (renumber bs).take n := by
  apply List.ext_getElem?
  intro i
  rw [getElem?_renumber, List.getElem?_take, List.getElem?_take, getElem?_renumber]
  split <;> rfl

namespace Generation

open KineticAlphabet.Random

variable {σ : Type} {source : Source σ} {c : Config} {start b : Beat} {beats : List Beat}
  {search₀ search search' : Search} {s₀ s s' : σ}

/-- What is drawn at one try depends neither on the length nor on the attempts allowed. -/
theorem drawMotions_withExtent (n a : Nat) (first : Pictograph) (others : List Pictograph)
    (locks : Locks) (tries attempts : Nat) :
    drawMotions source { c with length := n, maxAttempts := a } first others locks tries attempts =
      drawMotions source c first others locks tries attempts := by
  induction tries generalizing attempts with
  | zero => rfl
  | succ tries ih =>
    simp only [drawMotions, ih]
    rfl

theorem pick_withLength (n : Nat) (beats : List Beat) (goal : Option (Duo Location))
    (search : Search) :
    pick source { c with length := n } start beats goal search =
      pick source c start beats goal search := by
  simp only [pick, drawMotions_withExtent]
  rfl

theorem freeform_withLength (n k : Nat) (beats : List Beat) (search : Search) :
    freeform source { c with length := n } start k beats search =
      freeform source c start k beats search := by
  induction k generalizing beats search with
  | zero => rfl
  | succ k ih => simp only [freeform, pick_withLength, ih]

/-- A draw that succeeded does so as well where more tries are left. -/
theorem drawMotions_of_some {first : Pictograph} {others : List Pictograph} {locks : Locks}
    {tries attempts made : Nat} {ms : Motions}
    (h : (drawMotions source c first others locks tries attempts).run s = ((some ms, made), s'))
    (extra : Nat) :
    (drawMotions source c first others locks (tries + extra) attempts).run s =
      ((some ms, made), s') := by
  induction tries generalizing attempts s with
  | zero => cases h
  | succ tries ih =>
    rw [Nat.succ_add]
    rw [drawMotions] at h ⊢
    rcases hi : (source.upTo .full others.length).run s with ⟨i, s₁⟩
    rw [run_bind_of_eq hi] at h ⊢
    rcases hd : (dressMotions source c locks (first :: others)[i].motions).run s₁ with ⟨ms', s₂⟩
    rw [run_bind_of_eq hd] at h ⊢
    by_cases hp : locks.permits ms'
    · rw [if_pos hp] at h ⊢
      exact h
    · rw [if_neg hp] at h ⊢
      exact ih h

/-- A pick that succeeded does so as well where more attempts are allowed. -/
theorem pick_withAttempts {a : Nat} (ha : c.maxAttempts ≤ a) {goal : Option (Duo Location)}
    (h : (pick source c start beats goal search).run s = ((some b, search'), s')) :
    (pick source { c with maxAttempts := a } start beats goal search).run s =
      ((some b, search'), s') := by
  obtain ⟨extra, rfl⟩ := Nat.exists_eq_add_of_le ha
  unfold pick at h ⊢
  cases hs : lastState? start beats with
  | none =>
    rw [hs] at h
    cases h
  | some state =>
    rw [hs] at h
    dsimp only at h ⊢
    have hcand : candidates { c with maxAttempts := c.maxAttempts + extra } state goal =
        candidates c state goal := rfl
    rw [hcand]
    cases hcs : candidates c state goal with
    | nil =>
      rw [hcs] at h
      cases h
    | cons first others =>
      rw [hcs] at h
      dsimp only at h ⊢
      rw [drawMotions_withExtent]
      rcases hd : (drawMotions source c first others search.locks c.maxAttempts
        search.attempts).run s with ⟨⟨ms?, made⟩, s₁⟩
      rw [run_bind_of_eq hd] at h
      cases ms? with
      | none => cases h
      | some ms =>
        rw [run_bind_of_eq (drawMotions_of_some hd extra)]
        exact h

theorem Picks.withAttempts {a : Nat} (ha : c.maxAttempts ≤ a)
    {goal : Nat → Option (Duo Location)} (h : Picks source c start goal search₀ s₀ beats search s) :
    Picks source { c with maxAttempts := a } start goal search₀ s₀ beats search s := by
  induction h with
  | nil => exact .nil
  | snoc h hb ih => exact ih.snoc (pick_withAttempts ha hb)

/-- Where all beats were found, fewer of them are the first of these. -/
theorem freeform_take {m n : Nat} {all : List Beat}
    (h : ((freeform source c start m [] search₀).run s₀).1 = .ok all) (hn : n ≤ m) :
    all.length = m ∧ ((freeform source c start n [] search₀).run s₀).1 = .ok (all.take n) := by
  rcases Picks.nil.freeform_run m with
    ⟨all', search', s', hp, hl, hr⟩ | ⟨_, _, _, _, _, _, _, _, hr⟩
  · rw [hr] at h
    cases h
    rw [List.length_nil, Nat.zero_add] at hl
    obtain ⟨search₁, s₁, htake⟩ := hp.take n
    have hlen : (all.take n).length = n := by
      rw [List.length_take, hl]
      exact Nat.min_eq_left hn
    have hshort := htake.freeform_eq 0
    rw [hlen, Nat.add_zero] at hshort
    exact ⟨hl, by rw [hshort]; rfl⟩
  · rw [hr] at h
    cases h

/-- Where a beat was not found, it is not found either when more beats are asked for, and fewer are
the first of those before it. -/
theorem freeform_exhausted {m k made : Nat} {reached : Sequence}
    (h : ((freeform source c start m [] search₀).run s₀).1 = .error (.exhausted k made reached)) :
    ∃ part : List Beat, reached = .ofBeats "partial" (some start) part ∧ part.length + 1 = k ∧
      (∀ n, k ≤ n → ((freeform source c start n [] search₀).run s₀).1 =
        .error (.exhausted k made reached)) ∧
      ∀ n < k, ((freeform source c start n [] search₀).run s₀).1 = .ok (part.take n) := by
  rcases Picks.nil.freeform_run m with
    ⟨_, _, _, _, _, hr⟩ | ⟨part, search₁, s₁, search₂, s₂, hp, -, hfail, hr⟩
  · rw [hr] at h
    cases h
  · rw [hr] at h
    cases h
    refine ⟨part, rfl, rfl, fun n hn => ?_, fun n hn => ?_⟩
    · -- a longer run follows the same trace and stops at the same pick
      obtain ⟨d, rfl⟩ := Nat.exists_eq_add_of_le hn
      have hlonger := hp.freeform_eq (d + 1)
      rw [freeform_of_none hfail, ← Nat.add_assoc, Nat.add_right_comm] at hlonger
      rw [hlonger]
      rfl
    · -- a shorter one has all its beats before that
      obtain ⟨search', s', htake⟩ := hp.take n
      have hlen : (part.take n).length = n := by
        rw [List.length_take]
        exact Nat.min_eq_left (Nat.le_of_lt_succ hn)
      have hshort := htake.freeform_eq 0
      rw [hlen, Nat.add_zero] at hshort
      rw [hshort]
      rfl

/-- The metadata only tell the configuration. -/
theorem finish_metadata_congr (start start' : Beat) (beats beats' : List Beat) :
    (finish c start beats).metadata = (finish c start' beats').metadata := by
  unfold finish
  cases c.mode <;> rfl

/-- Freeform generation of any length makes its picks as it would for any other. -/
theorem generate_withLength (hc : c.check = .ok ()) (hm : c.mode = .freeform) {n : Nat}
    (hn : 1 ≤ n) (hs : (drawStart source c).run s = (start, s')) :
    ((generate source { c with length := n }).run s).1 =
      (((freeform source c start n [] ⟨.free, 0⟩).run s').1).map (finish c start) := by
  have h := generate_run_freeform (c := { c with length := n }) (Config.check_withLength hc hm hn)
    hm hs
  rwa [freeform_withLength] at h

theorem generate_take (hc : c.check = .ok ()) (hm : c.mode = .freeform) {n : Nat} (h1 : 1 ≤ n)
    (hn : n ≤ c.length) {q : Sequence} (h : ((generate source c).run s).1 = .ok q) :
    ∃ q', ((generate source { c with length := n }).run s).1 = .ok q' ∧
      q'.startPosition = q.startPosition ∧ q'.metadata = q.metadata ∧ q'.length = n ∧
      q'.beats = q.beats.take n := by
  rcases hs : (drawStart source c).run s with ⟨start, s'⟩
  rw [generate_run_freeform hc hm hs] at h
  rw [generate_withLength hc hm h1 hs]
  cases hr : ((freeform source c start c.length [] ⟨.free, 0⟩).run s').1 with
  | error e =>
    rw [hr] at h
    cases h
  | ok all =>
    rw [hr] at h
    cases h
    obtain ⟨hl, htake⟩ := freeform_take hr hn
    rw [htake]
    refine ⟨_, rfl, ?_, finish_metadata_congr _ _ _ _, ?_, ?_⟩
    · rw [finish_startPosition, finish_startPosition]
    · rw [length_finish, List.length_take, hl]
      exact Nat.min_eq_left hn
    · rw [finish_beats, finish_beats, Sequence.renumber_take]

theorem generate_exhausted_take (hc : c.check = .ok ()) (hm : c.mode = .freeform) {n k made : Nat}
    (h1 : 1 ≤ n) {reached : Sequence}
    (h : ((generate source c).run s).1 = .error (.exhausted k made reached)) :
    (k ≤ n → ((generate source { c with length := n }).run s).1 =
      .error (.exhausted k made reached)) ∧
    (n < k → ∃ q', ((generate source { c with length := n }).run s).1 = .ok q' ∧
      q'.startPosition = reached.startPosition ∧ q'.length = n ∧
      q'.beats = reached.beats.take n) := by
  rcases hs : (drawStart source c).run s with ⟨start, s'⟩
  rw [generate_run_freeform hc hm hs] at h
  rw [generate_withLength hc hm h1 hs]
  cases hr : ((freeform source c start c.length [] ⟨.free, 0⟩).run s').1 with
  | ok all =>
    rw [hr] at h
    cases h
  | error e =>
    rw [hr] at h
    cases h
    obtain ⟨part, rfl, hk, hsame, hless⟩ := freeform_exhausted hr
    refine ⟨fun hn => by rw [hsame n hn]; rfl, fun hn => ?_⟩
    rw [hless n hn]
    refine ⟨_, rfl, ?_, ?_, ?_⟩
    · rw [finish_startPosition]
      rfl
    · rw [length_finish, List.length_take]
      exact Nat.min_eq_left (by omega)
    · rw [finish_beats, Sequence.renumber_take]
      rfl

theorem generate_withAttempts (hc : c.check = .ok ()) (hm : c.mode = .freeform) {a : Nat}
    (ha : c.maxAttempts ≤ a) {q : Sequence} (h : ((generate source c).run s).1 = .ok q) :
    ((generate source { c with maxAttempts := a }).run s).1 = .ok q := by
  have hadm := Config.check_eq_ok_iff.mp hc
  have hc' : ({ c with maxAttempts := a } : Config).check = .ok () :=
    Config.check_eq_ok_iff.mpr { hadm with attempts_pos := Nat.lt_of_lt_of_le hadm.attempts_pos ha }
  rcases hs : (drawStart source c).run s with ⟨start, s'⟩
  rw [generate_run_freeform hc hm hs] at h
  rw [generate_run_freeform (c := { c with maxAttempts := a }) hc' hm hs]
  rcases Picks.nil.freeform_run c.length with
    ⟨all, search', s'', hp, hl, hr⟩ | ⟨_, _, _, _, _, _, _, _, hr⟩
  · rw [hr] at h
    rw [List.length_nil, Nat.zero_add] at hl
    have hsame := (hp.withAttempts ha).freeform_eq 0
    rw [Nat.add_zero, hl] at hsame
    rw [hsame]
    exact h
  · rw [hr] at h
    cases h

/-- Asked for fewer beats, freeform generation brings the first of those that it brings otherwise,
with the same start position and metadata; where it does not come as far as that, it reports the
same beat. With more attempts allowed it brings the same sequence. -/
theorem generate_prolonged (source : Source σ) (hc : c.check = .ok ()) (hm : c.mode = .freeform)
    {n : Nat} (hpos : 1 ≤ n) (hn : n ≤ c.length) (s : σ) :
    (∀ q, ((generate source c).run s).1 = .ok q →
      ∃ q', ((generate source { c with length := n }).run s).1 = .ok q' ∧
        q'.startPosition = q.startPosition ∧ q'.metadata = q.metadata ∧ q'.length = n ∧
        q'.beats = q.beats.take n) ∧
    (∀ k made reached, ((generate source c).run s).1 = .error (.exhausted k made reached) →
      (k ≤ n → ((generate source { c with length := n }).run s).1 =
        .error (.exhausted k made reached)) ∧
      (n < k → ∃ q', ((generate source { c with length := n }).run s).1 = .ok q' ∧
        q'.startPosition = reached.startPosition ∧ q'.length = n ∧
        q'.beats = reached.beats.take n)) ∧
    ∀ q, ((generate source c).run s).1 = .ok q → ∀ a, c.maxAttempts ≤ a →
      ((generate source { c with maxAttempts := a }).run s).1 = .ok q :=
  ⟨fun _ h => generate_take hc hm hpos hn h, fun _ _ _ h => generate_exhausted_take hc hm hpos h,
    fun _ h _ ha => generate_withAttempts hc hm ha h⟩

/-- Two freeform beats with continuous props, one attempt for each. -/
def oneAttempt : Config := { Config.standard with length := 2, maxAttempts := 1 }

theorem check_oneAttempt : oneAttempt.check = .ok () :=
  Config.check_eq_ok_iff.mpr (by constructor <;> decide +kernel)

/-- After a G with both hands going round clockwise, a draw of two that go back breaks the locks. -/
theorem missed?_oneAttempt :
    missed? ((generate script oneAttempt).run [0, 0, 0, 7]).1 = some (2, 2) := by
  have hlength : oneAttempt.length = 2 := rfl
  simp only [generate, run, beatsAfter, hlength, freeform, pick, candidates,
    Catalog.startingAt, Catalog.entries_eq_build, Catalog.build_eq_map_zipIdx]
  decide +kernel

/-- The first seed gives a long sequence with half turns and floats. Asked for five beats it gives
the first five of them, and with ten times the attempts the whole. Where the second of two beats is
not found, the first alone is a sequence. -/
theorem generate_prolonged_advanced : (Config.advanced.check = .ok () ∧
    ∃ q q', ((generate ChaCha.source Config.advanced).run (.ofSeed 0)).1 = .ok q ∧
      ((generate ChaCha.source { Config.advanced with length := 5 }).run (.ofSeed 0)).1 = .ok q' ∧
      q'.length = 5 ∧ q'.beats = q.beats.take 5 ∧
      ((generate ChaCha.source { Config.advanced with maxAttempts := 2560 }).run
        (.ofSeed 0)).1 = .ok q) ∧
    oneAttempt.check = .ok () ∧
    ∃ reached q', ((generate script oneAttempt).run [0, 0, 0, 7]).1 =
        .error (.exhausted 2 2 reached) ∧
      ((generate script { oneAttempt with length := 1 }).run [0, 0, 0, 7]).1 = .ok q' ∧
      q'.length = 1 ∧ q'.beats = reached.beats.take 1 := by
  have hc : Config.advanced.check = .ok () := Config.check_eq_ok_iff.mpr Config.admitted_advanced
  obtain ⟨q, hq⟩ := exists_sequence ChaCha.source hc rfl rfl (.ofSeed 0)
  obtain ⟨hshort, -, hmore⟩ :=
    generate_prolonged ChaCha.source hc rfl (n := 5) (by decide) (by decide) (.ofSeed 0)
  obtain ⟨q', hq', -, -, hl, hb⟩ := hshort q hq
  obtain ⟨reached, hr⟩ := exists_of_missed? missed?_oneAttempt
  obtain ⟨-, hstopped, -⟩ := generate_prolonged script check_oneAttempt rfl (n := 1) (by decide)
    (by decide) [0, 0, 0, 7]
  obtain ⟨q₁, hq₁, -, hl₁, hb₁⟩ := (hstopped 2 2 reached hr).2 (by decide)
  exact ⟨⟨hc, q, q', hq, hq', hl, hb, hmore q hq 2560 (by decide)⟩, check_oneAttempt, reached, q₁,
    hr, hq₁, hl₁, hb₁⟩

end Generation

end KineticAlphabet
