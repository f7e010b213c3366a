import KineticAlphabet.Proofs.Agreement
import KineticAlphabet.Proofs.Transposing
/-!
What a history has to do with reversals. An actor reverses if it spins against the direction of the
last beat in which it spun, so beats in which nobody spins may be put in anywhere, and what lies
before a beat in which both spin is forgotten. A CAP type that does not exchange pro and anti keeps
all directions or reverses all of them, hence it keeps which of them differ: applied to the motions
and to their history it only hands the flags on to the actors that have the motions afterwards.
-/
namespace KineticAlphabet

theorem Rotation.ne_iff_eq_reversed {r s : Rotation} (hr : r ≠ .none) (hs : s ≠ .none) :
    r ≠ s ↔ s = r.reversed := by
  cases r <;> cases s <;> simp_all [reversed]

variable {ms : Motions} {a : Actor} {r : Rotation} {b : Beat} {history history' : List Beat}

namespace Duo

/-- An actor spins in a direction: its motion is there, and its prop turns so. -/
def Spins (ms : Motions) (a : Actor) (r : Rotation) : Prop :=
  r ≠ .none ∧ ∃ m, ms.get a = some m ∧ m.spin = r

theorem spinning?_eq_some_iff : ms.spinning? a = some r ↔ ms.Spins a r := by
  rw [spinning?, Option.bind_eq_some_iff, Spins]
  constructor
  · rintro ⟨m, hm, hr⟩
    rw [Motion.spinning?] at hr
    split at hr
    case isTrue hspins =>
      cases hr
      refine ⟨fun hnone => ?_, m, hm, rfl⟩
      rw [hnone] at hspins
      cases hspins
    case isFalse => cases hr
  · rintro ⟨hne, m, hm, rfl⟩
    refine ⟨m, hm, if_pos ?_⟩
    cases hs : m.spin with
    | none => exact absurd hs hne
    | cw | ccw => rfl

theorem spinning?_eq_none_iff : ms.spinning? a = none ↔ ∀ r, ¬ ms.Spins a r := by
  rw [Option.eq_none_iff_forall_ne_some]
  exact forall_congr' fun r => not_congr spinning?_eq_some_iff

end Duo

/-- The last beat of a history in which an actor spins has a direction. -/
def SpunLast (history : List Beat) (a : Actor) (r : Rotation) : Prop :=
  ∃ earlier b later, history = earlier ++ b :: later ∧ b.motions.Spins a r ∧
    ∀ b' ∈ later, ∀ r', ¬ b'.motions.Spins a r'

theorem SpunLast.ne_none (h : SpunLast history a r) : r ≠ .none := by
  obtain ⟨_, _, _, _, hspins, _⟩ := h
  exact hspins.1

theorem lastSpin?_eq_some_iff : lastSpin? history a = some r ↔ SpunLast history a r := by
  rw [lastSpin?, List.findSome?_eq_some_iff]
  constructor
  · rintro ⟨later, b, earlier, heq, hspin, hlater⟩
    refine ⟨earlier.reverse, b, later.reverse, ?_, Duo.spinning?_eq_some_iff.mp hspin,
      fun b' hb' => Duo.spinning?_eq_none_iff.mp (hlater b' (List.mem_reverse.mp hb'))⟩
    rw [← List.reverse_reverse history, heq]
    simp
  · rintro ⟨earlier, b, later, rfl, hspin, hlater⟩
    exact ⟨later.reverse, b, earlier.reverse, by simp, Duo.spinning?_eq_some_iff.mpr hspin,
      fun b' hb' => Duo.spinning?_eq_none_iff.mpr (hlater b' (List.mem_reverse.mp hb'))⟩

/-- An actor reverses just where it spins and spun the other way last. -/
theorem reverses_iff : reverses ms history a = true ↔
    ∃ now, ms.Spins a now ∧ SpunLast history a now.reversed := by
  unfold reverses
  split
  case h_1 now before hnow hbefore =>
    have hspins := Duo.spinning?_eq_some_iff.mp hnow
    have hspun := lastSpin?_eq_some_iff.mp hbefore
    rw [decide_eq_true_iff, Rotation.ne_iff_eq_reversed hspins.1 hspun.ne_none]
    constructor
    · rintro rfl
      exact ⟨now, hspins, hspun⟩
    · rintro ⟨now', hspins', hspun'⟩
      -- both directions are determined by the motions and the history
      obtain rfl : now' = now :=
        Option.some.inj ((Duo.spinning?_eq_some_iff.mpr hspins').symm.trans hnow)
      exact Option.some.inj (hbefore.symm.trans (lastSpin?_eq_some_iff.mpr hspun'))
  case h_2 hnot =>
    refine iff_of_false Bool.false_ne_true ?_
    rintro ⟨now, hspins, hspun⟩
    exact hnot now _ (Duo.spinning?_eq_some_iff.mpr hspins) (lastSpin?_eq_some_iff.mpr hspun)

/-- What is looked back to is the last spin of the beats behind, or else that of those before. -/
theorem lastSpin?_append (earlier later : List Beat) (a : Actor) :
    lastSpin? (earlier ++ later) a = (lastSpin? later a).or (lastSpin? earlier a) := by
  rw [lastSpin?, List.reverse_append, List.findSome?_append]
  rfl

theorem lastSpin?_cons (b : Beat) (history : List Beat) (a : Actor) :
    lastSpin? (b :: history) a = (lastSpin? history a).or (b.motions.spinning? a) := by
  rw [← List.singleton_append, lastSpin?_append]
  cases h : b.motions.spinning? a <;> simp [lastSpin?, h]

/-- Flags and count see no more of a history than what was spun last. -/
theorem reversals_congr (ms : Motions) (h : lastSpin? history = lastSpin? history') :
    reversalFlags ms history = reversalFlags ms history' ∧
      countReversals ms history = countReversals ms history' := by
  have hreverses : reverses ms history = reverses ms history' := by
    funext a
    simp only [reverses, h]
  have hflags : reversalFlags ms history = reversalFlags ms history' :=
    congrArg Duo.ofFn hreverses
  exact ⟨hflags, by simp only [countReversals, hflags]⟩

/-- Nobody spins in a beat. -/
def Beat.Still (b : Beat) : Prop := ∀ a r, ¬ b.motions.Spins a r

/-- A history with beats put in, anywhere, in which nobody spins. -/
inductive Padded : List Beat → List Beat → Prop
  | nil : Padded [] []
  | keep {history history' : List Beat} (b : Beat) (h : Padded history history') :
      Padded (b :: history) (b :: history')
  | put {history history' : List Beat} {b : Beat} (hb : b.Still) (h : Padded history history') :
      Padded history (b :: history')

theorem Padded.lastSpin?_eq (h : Padded history history') :
    lastSpin? history = lastSpin? history' := by
  funext a
  induction h with
  | nil => rfl
  | keep b _ ih => rw [lastSpin?_cons, lastSpin?_cons, ih]
  | put hb _ ih =>
    rw [lastSpin?_cons, Duo.spinning?_eq_none_iff.mpr (hb a), Option.or_none, ih]

/-- Behind a beat in which both actors spin, what came before it is forgotten. -/
theorem lastSpin?_forget (earlier later : List Beat) (hb : ∀ a, ∃ r, b.motions.Spins a r) :
    lastSpin? (earlier ++ b :: later) = lastSpin? (b :: later) := by
  funext a
  obtain ⟨r, hr⟩ := hb a
  rw [lastSpin?_append, lastSpin?_cons, Duo.spinning?_eq_some_iff.mpr hr]
  cases lastSpin? later a <;> rfl

def Actor.exchanged : Actor → Bool → Actor
  | .blue, true => .red
  | .red, true => .blue
  | a, false => a

namespace Cap

variable {c : Cap}

/-- What a CAP type that does not exchange pro and anti does to directions. -/
def onSpin (c : Cap) (r : Rotation) : Rotation := if c.has .mirrored then r.reversed else r

theorem onSpin_injective (c : Cap) : Function.Injective c.onSpin := by
  intro r s h
  unfold onSpin at h
  split at h
  · exact Rotation.reversed_inj.mp h
  · exact h

theorem spins_onSpin (c : Cap) (r : Rotation) : (c.onSpin r).spins = r.spins := by
  unfold onSpin
  split
  · exact Rotation.spins_reversed r
  · rfl

theorem spin_onMotion (slice : Slice) (hc : c.has .complementary = false) (m : Motion) :
    (c.onMotion slice m).spin = c.onSpin m.spin := by
  cases c <;> first | rfl | cases hc

/-- Each actor spins as the actor did whose motion it has now, or all do the other way. -/
theorem spinning?_onMotions (slice : Slice) (hc : c.has .complementary = false) (ms : Motions)
    (a : Actor) : (c.onMotions slice ms).spinning? a =
      (ms.spinning? (a.exchanged (c.has .swapped))).map c.onSpin := by
  have hmotion (m : Motion) :
      (c.onMotion slice m).spinning? = m.spinning?.map c.onSpin := by
    rw [Motion.spinning?, Motion.spinning?, spin_onMotion slice hc, spins_onSpin]
    split <;> rfl
  have hactor : (if c.has .swapped then ms.swap else ms).get a =
      ms.get (a.exchanged (c.has .swapped)) := by
    cases c.has .swapped <;> cases a <;> rfl
  rw [onMotions_eq, Duo.spinning?, Duo.spinning?, Duo.get_map, hactor]
  cases ms.get (a.exchanged (c.has .swapped)) with
  | none => rfl
  | some m => exact hmotion m

theorem lastSpin?_onMotions (slice : Slice) (hc : c.has .complementary = false)
    (history : List Beat) (a : Actor) :
    lastSpin? (history.map (Beat.mapMotions (c.onMotions slice))) a =
      (lastSpin? history (a.exchanged (c.has .swapped))).map c.onSpin := by
  induction history with
  | nil => rfl
  | cons b history ih =>
    rw [List.map_cons, lastSpin?_cons, lastSpin?_cons, ih, Beat.mapMotions,
      spinning?_onMotions slice hc]
    cases lastSpin? history (a.exchanged (c.has .swapped)) <;> rfl

theorem reverses_onMotions (slice : Slice) (hc : c.has .complementary = false) (ms : Motions)
    (history : List Beat) (a : Actor) :
    reverses (c.onMotions slice ms) (history.map (Beat.mapMotions (c.onMotions slice))) a =
      reverses ms history (a.exchanged (c.has .swapped)) := by
  unfold reverses
  rw [spinning?_onMotions slice hc, lastSpin?_onMotions slice hc]
  cases ms.spinning? (a.exchanged (c.has .swapped)) with
  | none => rfl
  | some now =>
    cases lastSpin? history (a.exchanged (c.has .swapped)) with
    | none => rfl
    | some before =>
      simp only [Option.map_some, ne_eq, c.onSpin_injective.eq_iff]

theorem reversalFlags_onMotions (slice : Slice) (hc : c.has .complementary = false) (ms : Motions)
    (history : List Beat) :
    reversalFlags (c.onMotions slice ms) (history.map (Beat.mapMotions (c.onMotions slice))) =
      (reversalFlags ms history).exchanged (c.has .swapped) := by
  have hblue := reverses_onMotions slice hc ms history .blue
  have hred := reverses_onMotions slice hc ms history .red
  rw [reversalFlags, Duo.ofFn, hblue, hred]
  cases c.has .swapped <;> rfl

/-- Blend, path and turns are the signs of a motion by itself, and no symmetry touches them. -/
theorem reversals_onMotion (c : Cap) (slice : Slice) (m : Motion) :
    (c.onMotion slice m).reversals = m.reversals := by
  have h := (Motion.isCarried_alike m).onMotion c slice (.refl m)
  rw [Motion.reversals, Motion.reversals, h.blend, h.path, h.turns]

theorem countReversals_onMotions (slice : Slice) (hc : c.has .complementary = false)
    (ms : Motions) (history : List Beat) :
    countReversals (c.onMotions slice ms) (history.map (Beat.mapMotions (c.onMotions slice))) =
      countReversals ms history := by
  have hown (m? : Option Motion) :
      (m?.map (Motion.reversals ∘ c.onMotion slice)).getD 0 = (m?.map Motion.reversals).getD 0 := by
    cases m? with
    | none => rfl
    | some m => exact c.reversals_onMotion slice m
  have hcontext : Beat.flagCount ((reversalFlags ms history).exchanged (c.has .swapped)) =
      Beat.flagCount (reversalFlags ms history) := by
    rcases reversalFlags ms history with ⟨_ | _, _ | _⟩ <;> cases c.has .swapped <;> rfl
  unfold countReversals
  rw [reversalFlags_onMotions slice hc, hcontext, onMotions_eq]
  cases c.has .swapped <;> simp [Duo.toList, Duo.map, Duo.swap, hown, Nat.max_comm]

end Cap

/-- An actor reverses just where it spins and spun the other way in the last beat in which it did.
So flags and count stay as they are when beats in which nobody spins are put into the history, and
when all is dropped that lies before a beat in which both spin. They go with every CAP type that
does not exchange pro and anti: the count stays, and the flags change places where the actors do. -/
theorem reversals_lookBack (ms : Motions) (history : List Beat) :
    (∀ a, (reversalFlags ms history).get a = true ↔
      ∃ now, ms.Spins a now ∧ SpunLast history a now.reversed) ∧
    (∀ history', Padded history history' →
      reversalFlags ms history' = reversalFlags ms history ∧
        countReversals ms history' = countReversals ms history) ∧
    (∀ earlier b later, history = earlier ++ b :: later → (∀ a, ∃ r, b.motions.Spins a r) →
      reversalFlags ms (b :: later) = reversalFlags ms history ∧
        countReversals ms (b :: later) = countReversals ms history) ∧
    ∀ (c : Cap) (slice : Slice), c.has .complementary = false →
      let image := c.onMotions slice
      reversalFlags (image ms) (history.map (Beat.mapMotions image)) =
          (reversalFlags ms history).exchanged (c.has .swapped) ∧
        countReversals (image ms) (history.map (Beat.mapMotions image)) =
          countReversals ms history := by
  refine ⟨fun a => ?_, fun history' h => ?_, ?_, fun c slice hc => ?_⟩
  · rw [reversalFlags, Duo.get_ofFn]
    exact reverses_iff
  · exact reversals_congr ms h.lastSpin?_eq.symm
  · rintro earlier b later rfl hb
    exact reversals_congr ms (lastSpin?_forget earlier later hb).symm
  · exact ⟨c.reversalFlags_onMotions slice hc ms history,
      c.countReversals_onMotions slice hc ms history⟩

def turning : Beat :=
  { Beat.empty 1 with
    motions := ⟨some (.shift .pro .n .e .inward), some (.shift .pro .s .w .inward)⟩ }

/-- Blue stands still, and red is not there. -/
def resting : Beat := { Beat.empty 2 with motions := ⟨some (.staticAt .e .inward), none⟩ }

/-- Blue spins against the clock and red with it. -/
def turningBack : Motions := ⟨some (.shift .anti .e .s .inward), some (.shift .pro .w .n .inward)⟩

/-- Blue reverses behind the first beat, also with a rest in between and with more beats before. In
the mirror, with the actors exchanged, it is red that does. -/
theorem reversals_lookBack_turningBack :
    Padded [turning] [turning, resting] ∧ (∀ a, ∃ r, turning.motions.Spins a r) ∧
    Cap.mirroredSwapped.has .complementary = false ∧
    reversalFlags turningBack [turning, resting] = ⟨true, false⟩ ∧
    countReversals turningBack [turning, resting] = 1 ∧
    reversalFlags turningBack [resting, turning, turning] = ⟨true, false⟩ ∧
    reversalFlags (Cap.mirroredSwapped.onMotions .halved turningBack)
      ([turning].map (Beat.mapMotions (Cap.mirroredSwapped.onMotions .halved))) =
        ⟨false, true⟩ := by
  have hstill : resting.Still := by
    intro a r
    exact Duo.spinning?_eq_none_iff.mp (by cases a <;> rfl) r
  have hpadded : Padded [turning] [turning, resting] := .keep turning (.put hstill .nil)
  have hboth : ∀ a, ∃ r, turning.motions.Spins a r := by
    intro a
    exact ⟨.cw, Duo.spinning?_eq_some_iff.mp (by cases a <;> rfl)⟩
  have hcap : Cap.mirroredSwapped.has .complementary = false := by decide
  obtain ⟨-, hput, -, himage⟩ := reversals_lookBack turningBack [turning]
  obtain ⟨-, -, hforget, -⟩ := reversals_lookBack turningBack [resting, turning, turning]
  refine ⟨hpadded, hboth, hcap, (hput _ hpadded).1.trans (by decide),
    (hput _ hpadded).2.trans (by decide +kernel), ?_, (himage _ .halved hcap).1.trans (by decide)⟩
  exact (hforget [resting, turning] turning [] rfl hboth).1.symm.trans (by decide)

end KineticAlphabet
