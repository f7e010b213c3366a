import KineticAlphabet.Generation.Basic
import KineticAlphabet.Proofs.Symmetry
/-!
Beats joined one after another. A beat that is assembled from motions that start where the hands are
leads from the state before to a state after it, with the end orientations that follow. So beats
that are joined to a start position pass the validity check, and repeats of a slice can always be
joined, because a CAP type takes the way of the hands to a way of the hands.
-/
namespace KineticAlphabet

theorem Duo.startHands?_eq_some_iff {ms : Motions} {hands : Duo Location} :
    ms.startHands? = some hands ↔ ∃ d : Duo Motion, ms = d.map some ∧
      d.map Motion.startLocation = hands := by
  constructor
  · intro h
    obtain ⟨d, hd, he⟩ := Option.map_eq_some_iff.mp h
    obtain ⟨hb, hr⟩ := both?_eq_some_iff.mp hd
    exact ⟨d, Duo.ext hb hr, he⟩
  · rintro ⟨d, rfl, rfl⟩
    rfl

/-- A beat that leads from one state to another: it is not blank, and both motions are there with
the end orientations that follow. -/
structure Beat.Carries (b : Beat) (before after : Duo Stance) : Prop where
  notBlank : b.isBlank = false
  motions : ∃ d : Duo Motion, b.motions = d.map some ∧ (∀ a, (d.get a).Consistent) ∧
    d.map Motion.startStance = before ∧ d.map Motion.endStance = after

theorem checkContinuity_self (n : Nat) (state : Duo Stance) :
    checkContinuity n state state = .ok () := by
  simp [checkContinuity, Duo.firstDifference, Actor.all]

namespace Beat.Carries

variable {b : Beat} {before after : Duo Stance}

theorem startState? (h : b.Carries before after) : b.startState? = some before := by
  obtain ⟨d, hd, -, hs, -⟩ := h.motions
  rw [Beat.startState?, hd, ← hs]
  rfl

theorem endState? (h : b.Carries before after) : b.endState? = some after := by
  obtain ⟨d, hd, -, -, he⟩ := h.motions
  rw [Beat.endState?, hd, ← he]
  rfl

theorem startHands? (h : b.Carries before after) :
    b.motions.startHands? = some before.locations := by
  obtain ⟨d, hd, -, hs, -⟩ := h.motions
  rw [hd, ← hs]
  rfl

theorem endHands? (h : b.Carries before after) :
    b.motions.endHands? = some after.locations := by
  obtain ⟨d, hd, -, -, he⟩ := h.motions
  rw [hd, ← he]
  rfl

theorem checkMotions (h : b.Carries before after) : ∃ d : Duo Motion, b.checkMotions = .ok d ∧
    d.map Motion.startStance = before ∧ d.map Motion.endStance = after := by
  obtain ⟨d, hd, hc, hs, he⟩ := h.motions
  have hb : b.checkMotion .blue = .ok d.blue := by
    simp only [checkMotion, hd, Duo.get_map]
    exact if_pos (hc .blue)
  have hr : b.checkMotion .red = .ok d.red := by
    simp only [checkMotion, hd, Duo.get_map]
    exact if_pos (hc .red)
  refine ⟨d, ?_, hs, he⟩
  simp only [Beat.checkMotions, hb, hr]
  rfl

/-- The check lets such a beat pass where it goes on from the last state. -/
theorem checkBeat (h : b.Carries before after) (first : Duo Stance) :
    Sequence.checkBeat b.number (some ⟨first, before⟩) b = .ok (some ⟨first, after⟩) := by
  obtain ⟨d, hd, rfl, rfl⟩ := h.checkMotions
  simp only [Sequence.checkBeat, ne_eq, not_true, if_false, h.notBlank, Bool.false_eq_true, hd]
  simp only [bind, Except.bind, checkContinuity_self]
  rfl

theorem startCourse (h : b.Carries before after) :
    Sequence.startCourse (some b) = .ok (some ⟨after, after⟩) := by
  obtain ⟨d, hd, -, rfl⟩ := h.checkMotions
  simp only [Sequence.startCourse, hd]
  rfl

end Beat.Carries

namespace Sequence

/-- A check of beats and others behind them is the check of those and then of the others. -/
theorem checkBeats_append (n : Nat) (k : Option Course) (bs cs : List Beat) :
    checkBeats n k (bs ++ cs) =
      checkBeats n k bs >>= fun k' => checkBeats (n + bs.length) k' cs := by
  induction bs generalizing n k with
  | nil => rfl
  | cons b bs ih =>
    have hlen : n + (b :: bs).length = n + 1 + bs.length := by
      rw [List.length_cons, Nat.add_comm bs.length, Nat.add_assoc]
    rw [List.cons_append, checkBeats, checkBeats, hlen]
    simp only [ih]
    exact (bind_assoc _ _ _).symm

theorem checkBeats_snoc (n : Nat) (k : Option Course) (bs : List Beat) (b : Beat) :
    checkBeats n k (bs ++ [b]) =
      checkBeats n k bs >>= fun k' => checkBeat (n + bs.length) k' b := by
  rw [checkBeats_append]
  congr
  funext k'
  rw [checkBeats]
  cases checkBeat (n + bs.length) k' b <;> rfl

end Sequence

namespace Generation

variable {start : Beat} {mss : List Motions} {beats : List Beat} {state : Duo Stance}

/-- Motions lead the hands from some locations to others, one pair after another. -/
inductive Leads : Duo Location → List Motions → Duo Location → Prop
  | nil (hands : Duo Location) : Leads hands [] hands
  | cons {hands next stop : Duo Location} {ms : Motions} {rest : List Motions}
      (hs : ms.startHands? = some hands) (he : ms.endHands? = some next)
      (h : Leads next rest stop) : Leads hands (ms :: rest) stop

namespace Leads

variable {here there : Duo Location}

theorem append {mss' : List Motions} {beyond : Duo Location} (h : Leads here mss there)
    (h' : Leads there mss' beyond) : Leads here (mss ++ mss') beyond := by
  induction h with
  | nil => exact h'
  | cons hs he _ ih => exact .cons hs he (ih h')

/-- A CAP type takes the way of the hands to a way of the hands. -/
theorem onMotionsN (h : Leads here mss there) (cap : Cap) (slice : Slice) (n : Nat) :
    Leads (cap.onHandsN slice n here) (mss.map (cap.onMotionsN slice n))
      (cap.onHandsN slice n there) := by
  induction h with
  | nil => exact .nil _
  | @cons hands next stop ms rest hs he _ ih =>
    refine .cons ?_ ?_ ih
    · rw [Duo.startHands?_eq, cap.hands?_onMotionsN Motion.isPlace_startLocation,
        ← Duo.startHands?_eq, hs]
      rfl
    · rw [Duo.endHands?_eq, cap.hands?_onMotionsN Motion.isPlace_endLocation,
        ← Duo.endHands?_eq, he]
      rfl

/-- A way from hands to their image is continued by its images. -/
theorem repeats {cap : Cap} {slice : Slice} (h : Leads here mss (cap.onHands slice here))
    (n : Nat) :
    Leads here ((List.range n).flatMap fun k => mss.map (cap.onMotionsN slice k))
      (cap.onHandsN slice n here) := by
  induction n with
  | zero => exact .nil _
  | succ n ih =>
    rw [List.range_succ, List.flatMap_append, List.flatMap_singleton, Cap.onHandsN_succ]
    exact ih.append (h.onMotionsN cap slice n)

end Leads

theorem assemble_carries {ms : Motions} (n : Nat) (history : List Beat)
    (hm : ms.startHands? = some state.locations) :
    ∃ next, (assemble n ms state history).Carries state next ∧
      ms.endHands? = some next.locations := by
  obtain ⟨d, rfl, hd⟩ := Duo.startHands?_eq_some_iff.mp hm
  let joined : Duo Motion := ⟨d.blue.withStartOrientation state.blue.orientation,
    d.red.withStartOrientation state.red.orientation⟩
  refine ⟨joined.map Motion.endStance, ⟨rfl, joined, rfl, ?_, ?_, rfl⟩, rfl⟩
  · intro a
    cases a <;> exact Motion.consistent_rederive _
  · have hb := congrArg Duo.blue hd
    have hr := congrArg Duo.red hd
    exact Duo.ext (congrArg (Stance.mk · state.blue.orientation) hb)
      (congrArg (Stance.mk · state.red.orientation) hr)

theorem outline_assemble (n : Nat) (ms : Motions) (state : Duo Stance) (history : List Beat) :
    (assemble n ms state history).motions.outline = ms.outline := by
  rcases ms with ⟨_ | b, _ | r⟩ <;> rfl

/-- Beats joined to a start position one after another, from motions that start where the hands
are, and the state after them. -/
inductive Joined (start : Beat) : List Motions → List Beat → Duo Stance → Prop
  | nil {state : Duo Stance} (h : start.endState? = some state) : Joined start [] [] state
  | snoc {mss : List Motions} {beats : List Beat} {state next : Duo Stance} {ms : Motions}
      (h : Joined start mss beats state) (hm : ms.startHands? = some state.locations)
      (hc : (assemble (beats.length + 1) ms state (start :: beats)).Carries state next)
      (he : ms.endHands? = some next.locations) :
      Joined start (mss ++ [ms])
        (beats ++ [assemble (beats.length + 1) ms state (start :: beats)]) next

namespace Joined

theorem getLast? (h : Joined start mss beats state) :
    (start :: beats).getLast?.bind Beat.endState? = some state := by
  cases h with
  | nil h => exact h
  | snoc _ _ hc _ =>
    rw [← List.cons_append, List.getLast?_concat]
    exact hc.endState?

theorem lastState? (h : Joined start mss beats state) :
    Generation.lastState? start beats = some state := by
  cases h with
  | nil h => simpa [Generation.lastState?] using h
  | snoc _ _ hc _ => simp [Generation.lastState?, hc.endState?]

/-- Joined beats lead the hands on from the start position. -/
theorem exists_leads (h : Joined start mss beats state) : ∃ first, start.endState? = some first ∧
    Leads first.locations (beats.map Beat.motions) state.locations := by
  induction h with
  | nil h => exact ⟨_, h, .nil _⟩
  | snoc _ _ hc _ ih =>
    obtain ⟨first, hf, hl⟩ := ih
    refine ⟨first, hf, ?_⟩
    rw [List.map_append]
    exact hl.append (.cons hc.startHands? hc.endHands? (.nil _))

theorem length_eq (h : Joined start mss beats state) : beats.length = mss.length := by
  induction h with
  | nil => rfl
  | snoc _ _ _ _ ih => simp [ih]

/-- The first of joined beats are joined to the start position too. -/
theorem take (h : Joined start mss beats state) (n : Nat) :
    ∃ mss' state', Joined start mss' (beats.take n) state' := by
  induction h with
  | nil h => exact ⟨[], _, by simpa using .nil h⟩
  | @snoc mss beats state next ms h hm hc he ih =>
    by_cases hn : n ≤ beats.length
    · rw [List.take_append_of_le_length hn]
      exact ih
    · rw [List.take_of_length_le (by simp; omega)]
      exact ⟨mss ++ [ms], next, h.snoc hm hc he⟩

/-- Every joined beat was assembled from some motions and joined to the beats before it. -/
theorem exists_assemble (h : Joined start mss beats state) {i : Nat} {b : Beat}
    (hi : beats[i]? = some b) : ∃ mss' before ms after, Joined start mss' (beats.take i) before ∧
      b = assemble (i + 1) ms before (start :: beats.take i) ∧ b.Carries before after := by
  induction h with
  | nil _ => cases hi
  | @snoc mss beats state next ms h hm hc he ih =>
    by_cases hlt : i < beats.length
    · rw [List.getElem?_append_left hlt] at hi
      rw [List.take_append_of_le_length (Nat.le_of_lt hlt)]
      exact ih hi
    · obtain ⟨hlt', hb⟩ := List.getElem?_eq_some_iff.mp hi
      rw [List.length_append, List.length_singleton] at hlt'
      have hlast : i = beats.length := by omega
      subst hlast
      rw [List.getElem_concat_length rfl] at hb
      subst hb
      rw [List.take_left]
      exact ⟨mss, state, ms, next, h, rfl, hc⟩

/-- Every joined beat has its number and leads on from where the beat before, or the start
position, ended. -/
theorem getElem? (h : Joined start mss beats state) {i : Nat} {b : Beat}
    (hi : beats[i]? = some b) :
    b.number = i + 1 ∧ ∃ before after, b.Carries before after ∧
      (start :: beats)[i]?.bind Beat.endState? = some before := by
  obtain ⟨mss', before, ms, after, hj, hb, hc⟩ := h.exists_assemble hi
  refine ⟨congrArg Beat.number hb, before, after, hc, ?_⟩
  have hlt : i < (start :: beats).length :=
    Nat.lt_succ_of_lt (List.getElem?_eq_some_iff.mp hi).1
  have hlast := hj.getLast?
  rw [← List.take_succ_cons, List.getLast?_take, if_neg (Nat.succ_ne_zero i), Nat.add_sub_cancel,
    List.getElem?_eq_getElem hlt, Option.some_or] at hlast
  rw [List.getElem?_eq_getElem hlt]
  exact hlast

/-- The validity check of joined beats reaches the state after them. -/
theorem checkBeats (h : Joined start mss beats state) {first : Duo Stance}
    (hs : start.endState? = some first) :
    Sequence.checkBeats 1 (some ⟨first, first⟩) beats = .ok (some ⟨first, state⟩) := by
  induction h with
  | nil h =>
    rw [h] at hs
    cases hs
    rfl
  | @snoc mss beats state next ms h hm hc he ih =>
    rw [Sequence.checkBeats_snoc, ih]
    have hb := hc.checkBeat first
    have hn : 1 + beats.length = beats.length + 1 := Nat.add_comm _ _
    rw [hn]
    exact hb

/-- Apart from orientations the joined beats hold the motions they were assembled from. -/
theorem outlines (h : Joined start mss beats state) :
    beats.map (fun b => b.motions.outline) = mss.map Duo.outline := by
  induction h with
  | nil _ => rfl
  | @snoc mss beats state next ms h hm hc he ih =>
    rw [List.map_append, List.map_append, ih, List.map_singleton, outline_assemble]
    rfl

end Joined

/-- Joined beats already carry the numbers that a sequence gives them. -/
theorem Joined.renumber_eq (h : Joined start mss beats state) : Sequence.renumber beats = beats :=
  Sequence.renumber_eq_self fun _ _ hi => (h.getElem? hi).1

/-- Repeats of motions can be joined as long as they lead the hands on. -/
theorem exists_chain (h : Joined start mss beats state) {rest : List Motions}
    {stop : Duo Location} (hl : Leads state.locations rest stop) :
    ∃ all last, chain start rest state beats = .ok all ∧ Joined start (mss ++ rest) all last ∧
      last.locations = stop := by
  induction rest generalizing mss beats state with
  | nil =>
    cases hl
    exact ⟨beats, state, rfl, by simpa using h, rfl⟩
  | cons ms rest ih =>
    cases hl with
    | cons hs he hl =>
      obtain ⟨next, hc, hn⟩ := assemble_carries (beats.length + 1) (start :: beats) hs
      rw [he] at hn
      cases hn
      obtain ⟨all, last, hall, hjoined, hlast⟩ := ih (h.snoc hs hc he) hl
      refine ⟨all, last, ?_, by simpa using hjoined, hlast⟩
      rw [chain, stateAfter, hc.endState?]
      exact hall

/-- A slice that leads the hands to their image can be joined to its repeats, and then the hands are
back where they were. -/
theorem exists_extend {c : Config} {first : Duo Stance} (h : Joined start mss beats state)
    (hs : start.endState? = some first)
    (hg : state.locations = c.cap.onHands c.slice first.locations) :
    ∃ all last, extend c start beats = .ok all ∧ Joined start (repeated c beats) all last ∧
      last.locations = first.locations := by
  obtain ⟨first', hs', hl⟩ := h.exists_leads
  rw [hs] at hs'
  cases hs'
  rw [hg] at hl
  have hr : Leads first.locations (repeated c beats) first.locations := by
    have hl := hl.repeats c.slice.repeats
    rw [Cap.onHandsN_repeats] at hl
    simpa only [repeated, List.map_map, Function.comp_def] using hl
  obtain ⟨all, last, hall, hj, hlast⟩ := exists_chain (.nil hs) hr
  refine ⟨all, last, ?_, hj, hlast⟩
  rw [extend, stateAfter, hs]
  exact hall

end Generation

end KineticAlphabet
