import KineticAlphabet.Proofs.Labelling
import KineticAlphabet.Proofs.Prolonging
import KineticAlphabet.Proofs.Repetition
/-!
Continuous props. Each actor is locked to the direction in which it spins first, and only motions
that keep the locks are joined. So all spins of picked beats are those of the locks, whatever
statics, dashes and floats come between, and the search through the beats before never finds another
direction. A CAP type that only turns the grid keeps the spins; the others may reverse them.
-/
namespace KineticAlphabet

/-- Orientations do not matter for who spins. -/
theorem Duo.spinning?_outline (ms : Motions) (a : Actor) :
    ms.outline.spinning? a = ms.spinning? a := by
  rcases ms with ⟨_ | b, _ | r⟩ <;> cases a <;> rfl

theorem Duo.spinning?_congr {ms ms' : Motions} (h : ms.outline = ms'.outline) (a : Actor) :
    ms.spinning? a = ms'.spinning? a := by
  rw [← spinning?_outline ms, h, spinning?_outline]

/-- A CAP type that only turns the grid changes no spin. -/
theorem Cap.spinning?_onMotionsN_strictRotated (slice : Slice) (n : Nat) (ms : Motions)
    (a : Actor) : (strictRotated.onMotionsN slice n ms).spinning? a = ms.spinning? a := by
  induction n with
  | zero => rfl
  | succ n ih =>
    have hturn : ∀ ms : Motions,
        (strictRotated.onMotions slice ms).spinning? a = ms.spinning? a := by
      rintro ⟨_ | b, _ | r⟩ <;> cases a <;> rfl
    rw [onMotionsN, hturn, ih]

theorem exists_getElem?_of_mem_take {α : Type} {l : List α} {n : Nat} {a : α} (h : a ∈ l.take n) :
    ∃ i < n, l[i]? = some a := by
  obtain ⟨i, hi, rfl⟩ := List.mem_take_iff_getElem.mp h
  obtain ⟨hin, hlt⟩ := Nat.lt_min.mp hi
  exact ⟨i, hin, List.getElem?_eq_getElem hlt⟩

/-- What was spun last was spun in some beat of the history. -/
theorem exists_of_lastSpin? {history : List Beat} {a : Actor} {r : Rotation}
    (h : lastSpin? history a = some r) : ∃ b ∈ history, b.motions.spinning? a = some r := by
  obtain ⟨b, hb, hr⟩ := List.exists_of_findSome?_eq_some h
  exact ⟨b, List.mem_reverse.mp hb, hr⟩

/-- An actor that spins as it did last does not reverse. -/
theorem reversalFlags_eq_noReversals {ms : Motions} {history : List Beat}
    (h : ∀ a now before, ms.spinning? a = some now → lastSpin? history a = some before →
      now = before) : reversalFlags ms history = Beat.noReversals := by
  have hkeeps : ∀ a, reverses ms history a = false := by
    intro a
    unfold reverses
    split
    case h_1 now before hnow hbefore => simp [h a now before hnow hbefore]
    case h_2 => rfl
  exact Duo.ext (hkeeps .blue) (hkeeps .red)

/-- Beats in which every actor that spins does so in one direction. -/
def SpinAlong (ways : Duo Rotation) (beats : List Beat) : Prop :=
  ∀ b ∈ beats, ∀ a r, b.motions.spinning? a = some r → r = ways.get a

/-- Beats without reversals: each actor spins in one direction at most, and no beat is marked. -/
structure Steady (beats : List Beat) : Prop where
  oneWay : ∃ ways, SpinAlong ways beats
  unmarked : ∀ b ∈ beats, b.reversals = Beat.noReversals

namespace Generation

open KineticAlphabet.Random

variable {σ : Type} {c : Config} {start b : Beat} {beats part : List Beat} {locks locks' : Locks}
  {ms : Motions} {goal : Option (Duo Location)} {ways : Duo Rotation}

theorem Locks.permits_iff : locks.permits ms = true ↔ ∀ a spin lock,
    ms.spinning? a = some spin → locks.get a = some lock → spin = lock := by
  rw [Actor.forall_iff]
  simp only [permits, Actor.all, List.all_cons, List.all_nil, Bool.and_true, Bool.and_eq_true]
  refine and_congr ?blue ?red
  case blue => cases ms.spinning? .blue <;> cases locks.get .blue <;> simp
  case red => cases ms.spinning? .red <;> cases locks.get .red <;> simp

/-- Every spin of some beats is the lock of its actor. -/
def Locks.Hold (locks : Locks) (beats : List Beat) : Prop :=
  ∀ b ∈ beats, ∀ a r, b.motions.spinning? a = some r → locks.get a = some r

/-- Motions that the locks permit are held by the locks after them. -/
theorem Locks.Hold.record (h : locks.Hold beats) (hp : locks.permits ms = true)
    (hb : ∀ a, b.motions.spinning? a = ms.spinning? a) :
    (locks.record .continuous ms).Hold (beats ++ [b]) := by
  intro b' hb' a r hr
  rw [Locks.record, Duo.get_ofFn]
  rcases List.mem_append.mp hb' with hold | hnew
  · rw [h b' hold a r hr, Option.some_or]
  · rw [List.mem_singleton.mp hnew, hb a] at hr
    -- a free lock takes the spin, and one that is set already has it
    cases hl : locks.get a with
    | none => rw [hr, Option.none_or]
    | some lock => rw [Option.some_or, permits_iff.mp hp a r lock hr hl]

theorem Picked.hold (h : Picked c start beats locks) (hc : c.continuity = .continuous) :
    locks.Hold beats := by
  induction h with
  | nil => exact fun _ hb => absurd hb List.not_mem_nil
  | snoc h hb ih =>
    cases hb with
    | intro hs hd hp =>
      rw [hc]
      exact ih.record hp fun a => Duo.spinning?_congr (outline_assemble _ _ _ _) a

/-- With continuous props all picked beats spin along the locks. -/
theorem Picked.exists_spinAlong (h : Picked c start beats locks)
    (hc : c.continuity = .continuous) : ∃ ways, SpinAlong ways beats := by
  refine ⟨locks.map (·.getD .none), fun b hb a r hr => ?_⟩
  rw [Duo.get_map, h.hold hc b hb a r hr]
  rfl

/-- In a start position nobody spins. -/
theorem Started.spinning? (h : Started c start) (a : Actor) :
    start.motions.spinning? a = none := by
  cases h
  cases a <;> rfl

/-- Joined beats that spin along one way are not marked, because the flags of a beat only look at
those before it. -/
theorem Joined.steady_take {mss : List Motions} {last : Duo Stance} {n : Nat}
    (h : Joined start mss beats last) (hs : Started c start)
    (hw : SpinAlong ways (beats.take n)) : Steady (beats.take n) := by
  refine ⟨⟨ways, hw⟩, fun b hb => ?_⟩
  obtain ⟨i, hin, hi⟩ := exists_getElem?_of_mem_take hb
  obtain ⟨mss', before, ms, after, -, rfl, -⟩ := h.exists_assemble hi
  refine reversalFlags_eq_noReversals fun a now last hnow hlast => ?_
  obtain ⟨b', hb', hspin⟩ := exists_of_lastSpin? hlast
  rcases List.mem_cons.mp hb' with rfl | hb'
  · rw [hs.spinning? a] at hspin
    cases hspin
  · -- the flags were set when fewer beats stood there, all of them among the first ones
    have hmem : b' ∈ beats.take n := List.take_subset_take_left _ (Nat.le_of_lt hin) hb'
    rw [hw _ hb a now hnow, hw b' hmem a last hspin]

theorem Joined.steady {mss : List Motions} {last : Duo Stance} (h : Joined start mss beats last)
    (hs : Started c start) (hw : SpinAlong ways beats) : Steady beats := by
  have hall : beats.take beats.length = beats := List.take_length
  rw [← hall] at hw ⊢
  exact h.steady_take hs hw

theorem Picked.steady (h : Picked c start beats locks) (hs : Started c start)
    (hc : c.continuity = .continuous) : Steady beats := by
  obtain ⟨first, hf⟩ := hs.exists_endState?
  obtain ⟨mss, last, hj⟩ := h.exists_joined hf
  obtain ⟨ways, hw⟩ := h.exists_spinAlong hc
  exact hj.steady hs hw

/-- The first slice holds the spins that were picked. -/
theorem Joined.spinAlong_first {last : Duo Stance} (h : Joined start (repeated c part) beats last)
    (hw : SpinAlong ways part) : SpinAlong ways (beats.take part.length) := by
  have hpos : 0 < c.slice.repeats := by cases c.slice <;> decide
  intro b hb a r hr
  obtain ⟨i, hlt, hi⟩ := exists_getElem?_of_mem_take hb
  obtain ⟨b', hb', ho⟩ := h.outline_repeated hpos (List.getElem?_eq_getElem hlt)
  rw [Nat.zero_mul, Nat.zero_add, hi] at hb'
  cases hb'
  rw [Duo.spinning?_congr ho a] at hr
  exact hw _ (List.getElem_mem hlt) a r hr

/-- A CAP type that only turns the grid repeats those spins. -/
theorem Joined.spinAlong_strictRotated {last : Duo Stance}
    (h : Joined start (repeated c part) beats last) (hcap : c.cap = .strictRotated)
    (hw : SpinAlong ways part) : SpinAlong ways beats := by
  intro b hb a r hr
  obtain ⟨k, b', hb', ho⟩ := h.exists_repeated hb
  rw [Duo.spinning?_congr ho a, hcap, Cap.spinning?_onMotionsN_strictRotated] at hr
  exact hw b' hb' a r hr

theorem Circled.steady {first : Duo Stance} (h : Circled c start first part beats)
    (hs : Started c start) (hc : c.continuity = .continuous) :
    Steady (beats.take c.sliceLength) ∧ (c.cap = .strictRotated → Steady beats) := by
  obtain ⟨locks, hp⟩ := h.picked
  obtain ⟨last, hj, -⟩ := h.joined
  obtain ⟨ways, hw⟩ := hp.exists_spinAlong hc
  constructor
  · rw [← h.length_eq]
    exact hj.steady_take hs (hj.spinAlong_first hw)
  · exact fun hcap => hj.steady hs (hj.spinAlong_strictRotated hcap hw)

/-- With continuous props nothing reverses in the beats of a freeform sequence or report. Neither
does anything in the first slice of a circular sequence, nor in all of it where the CAP type only
turns the grid. -/
theorem generate_steady {σ : Type} (source : Source σ) (hc : c.continuity = .continuous) (s : σ) :
    (∀ q, ((generate source c).run s).1 = .ok q →
      (c.mode = .freeform → Steady q.beats) ∧
      (c.mode = .circular → Steady (q.beats.take c.sliceLength) ∧
        (c.cap = .strictRotated → Steady q.beats))) ∧
    ∀ beat made reached, ((generate source c).run s).1 = .error (.exhausted beat made reached) →
      c.mode = .freeform → Steady reached.beats := by
  refine ⟨fun q h => ⟨fun hm => ?_, fun hm => ?_⟩, fun beat made reached h hm => ?_⟩
  · obtain ⟨start, locks, hs, hp⟩ := (exists_picked_of_freeform hm).1 q h
    exact hp.steady hs hc
  · obtain ⟨start, beats, ha, hs, hb, rfl⟩ := exists_built source h
    rw [finish_beats, hb.renumber_eq ha hs]
    cases hb with
    | freely hm' =>
      rw [hm] at hm'
      cases hm'
    | circled _ _ hcircled => exact hcircled.steady hs hc
  · obtain ⟨start, locks, hs, hp⟩ := (exists_picked_of_freeform hm).2 beat made reached h
    exact hp.steady hs hc

def letters? (r : Except GenerationError Sequence) : Option (List (Option String)) :=
  r.toOption.map fun q => q.beats.map Beat.letter

theorem exists_of_letters? {r : Except GenerationError Sequence} {letters : List (Option String)}
    (h : letters? r = some letters) : ∃ q, r = .ok q ∧ q.beats.map Beat.letter = letters := by
  obtain ⟨q, hq, hl⟩ := Option.map_eq_some_iff.mp h
  cases r with
  | error e => cases hq
  | ok =>
    cases hq
    exact ⟨q, rfl, hl⟩

/-- Three freeform beats with continuous props, half turns and floats. -/
def threeTurning : Config := { Config.standard with length := 3, level := 3, maxAttempts := 2 }

/-- Two halves of two beats each, the second half turned against the first. -/
def turnedHalves : Config := { Config.circular with length := 4, maxAttempts := 1 }

/-- In the first run the first beat locks blue, which floats, and red. A draw of two hands that go
back is refused, and the static that is drawn next turns as blue is locked. -/
theorem letters?_locked :
    letters? ((generate script threeTurning).run
      ([0, 0] ++ [0, 0, 1, 0, 0] ++ [7, 0, 0, 0, 0] ++ [28, 1, 0] ++ [0, 0, 0, 0, 0])).1 =
        some [some "G", some "β", some "G"] ∧
    letters? ((generate script turnedHalves).run []).1 =
      some [some "G", some "G", some "G", some "G"] := by
  have hlength : threeTurning.length = 3 := rfl
  have hslice : turnedHalves.sliceLength = 2 := rfl
  have hmax : turnedHalves.maxAttempts = 1 := rfl
  constructor
  · simp only [generate, run, beatsAfter, hlength, freeform, pick, candidates,
      Catalog.startingAt, Catalog.entries_eq_build, Catalog.build_eq_map_zipIdx]
    decide +kernel
  · simp only [generate, run, beatsAfter, hslice, hmax, circular, slice, pick, candidates,
      Catalog.startingAt, Catalog.entries_eq_build, Catalog.build_eq_map_zipIdx]
    decide +kernel

/-- Nothing reverses although draws that would are made on the way: one that is refused, and one
that ends the search. Nor does anything in two halves that are turned against each other. -/
theorem generate_steady_locked :
    (∃ q, ((generate script threeTurning).run
        ([0, 0] ++ [0, 0, 1, 0, 0] ++ [7, 0, 0, 0, 0] ++ [28, 1, 0] ++ [0, 0, 0, 0, 0])).1 =
          .ok q ∧
      q.beats.map Beat.letter = [some "G", some "β", some "G"] ∧ Steady q.beats) ∧
    (∃ reached, ((generate script oneAttempt).run [0, 0, 0, 7]).1 =
      .error (.exhausted 2 2 reached) ∧ Steady reached.beats) ∧
    ∃ q, ((generate script turnedHalves).run []).1 = .ok q ∧
      q.beats.map Beat.letter = [some "G", some "G", some "G", some "G"] ∧ Steady q.beats := by
  obtain ⟨q, hq, hl⟩ := exists_of_letters? letters?_locked.1
  obtain ⟨reached, hr⟩ := exists_of_missed? missed?_oneAttempt
  obtain ⟨q', hq', hl'⟩ := exists_of_letters? letters?_locked.2
  exact ⟨⟨q, hq, hl, ((generate_steady script rfl _).1 q hq).1 rfl⟩,
    ⟨reached, hr, (generate_steady script rfl _).2 2 2 reached hr rfl⟩,
    q', hq', hl', (((generate_steady script rfl _).1 q' hq').2 rfl).2 rfl⟩

end Generation

end KineticAlphabet
