import KineticAlphabet.Motion
import Mathlib.Logic.Function.Basic
/-!
Turning on the cycle of orientations. Whole turns flip a prop and a half turn left over moves it by
a quarter of the cycle, but both together are one walk: every half turn is one step along the spin,
and an anti shift takes two steps more. So turning can be undone and continued as adding can.
-/
namespace KineticAlphabet

/-- The steps on the cycle of orientations for each half turn. What does not spin is turned as if
clockwise. -/
def Rotation.sense : Rotation → Int
  | .cw | .none => 1
  | .ccw => -1

theorem Rotation.sense_eq (r : Rotation) : r.sense = 1 ∨ r.sense = -1 := by cases r <;> decide

theorem Rotation.sense_reversed {r : Rotation} (h : r.spins = true) :
    r.reversed.sense = -r.sense := by
  cases r <;> first | rfl | cases h

/-- How many flips a motion of a type makes without turns. -/
def MotionType.flips : MotionType → Nat
  | .anti => 1
  | _ => 0

namespace Orientation

def place : Orientation → Nat
  | inward => 0
  | counter => 1
  | outward => 2
  | clock => 3

theorem place_lt (o : Orientation) : o.place < 4 := by cases o <;> decide

theorem place_injective {o o' : Orientation} (h : o.place = o'.place) : o = o' := by
  cases o <;> cases o' <;> first | rfl | cases h

/-- Radial and rotational orientations take turns on the cycle. -/
theorem category_eq_iff {o o' : Orientation} :
    o.category = o'.category ↔ o.place % 2 = o'.place % 2 := by
  cases o <;> cases o' <;> decide

theorem place_flipped (o : Orientation) : o.flipped.place = (o.place + 2) % 4 := by
  cases o <;> rfl

/-- Whole turns flip an orientation as often as there are of them. -/
theorem place_afterWhole (o : Orientation) (t : MotionType) (turns : Nat) :
    (o.afterWhole t turns).place = (o.place + 2 * (turns + t.flips)) % 4 := by
  have hlt := o.place_lt
  have hflip := o.place_flipped
  cases t <;> simp only [afterWhole, MotionType.flips] <;> split <;> omega

theorem place_afterHalf (o : Orientation) (spin : Rotation) :
    ((o.afterHalf spin).place : Int) = (o.place + spin.sense) % 4 := by
  cases o <;> cases spin <;> rfl

variable {t t' t'' : MotionType} {spin : Rotation}

/-- Both stages together are one walk on the cycle. -/
theorem place_after (ht : t ≠ .float) (h : UInt32) (spin : Rotation) (o : Orientation) :
    ((o.after t (.half h) spin).place : Int) =
      (o.place + spin.sense * h.toNat + 2 * t.flips) % 4 := by
  have hwhole := o.place_afterWhole t (h.toNat / 2)
  have hhalf := (o.afterWhole t (h.toNat / 2)).place_afterHalf spin
  simp only [after, Turns.isFloat, Turns.wholePart, Turns.hasHalf, ht, decide_false, Bool.or_false,
    Bool.false_eq_true, if_false, decide_eq_true_eq]
  split
  case isTrue hodd => rcases spin.sense_eq with hs | hs <;> rw [hs] at hhalf ⊢ <;> omega
  case isFalse heven => rcases spin.sense_eq with hs | hs <;> rw [hs] <;> omega

theorem after_none (ht : t ≠ .float) (h : UInt32) (o : Orientation) :
    o.after t (.half h) .none = o.after t (.half h) .cw := by
  simp only [after, Turns.isFloat, ht, decide_false, Bool.or_false, Bool.false_eq_true, if_false,
    afterHalf]

/-- The same turns against the spin lead back. -/
theorem after_reversed (ht : t ≠ .float) (h : UInt32) (hspin : spin.spins = true)
    (o : Orientation) : (o.after t (.half h) spin).after t (.half h) spin.reversed = o := by
  apply place_injective
  have hthere := place_after ht h spin o
  have hback := place_after ht h spin.reversed (o.after t (.half h) spin)
  have hlt := o.place_lt
  rw [Rotation.sense_reversed hspin, Int.neg_mul] at hback
  generalize spin.sense * (h.toNat : Int) = steps at hthere hback
  omega

theorem bijective_after (ht : t ≠ .float) (h : UInt32) (spin : Rotation) :
    Function.Bijective fun o : Orientation => o.after t (.half h) spin := by
  have hspinning : ∀ spin : Rotation, spin.spins = true →
      Function.Bijective fun o : Orientation => o.after t (.half h) spin := by
    intro spin hspin
    refine Function.bijective_iff_has_inverse.mpr
      ⟨fun o => o.after t (.half h) spin.reversed, after_reversed ht h hspin, fun o => ?_⟩
    have hback := after_reversed ht h ((Rotation.spins_reversed spin).trans hspin) o
    rwa [Rotation.reversed_reversed] at hback
  cases spin with
  | cw => exact hspinning .cw rfl
  | ccw => exact hspinning .ccw rfl
  | none =>
    simp only [after_none ht]
    exact hspinning .cw rfl

theorem category_after_ne_iff (ht : t ≠ .float) (h : UInt32) (spin : Rotation) (o : Orientation) :
    (o.after t (.half h) spin).category ≠ o.category ↔ h.toNat % 2 = 1 := by
  have hplace := place_after ht h spin o
  rw [ne_eq, category_eq_iff]
  rcases spin.sense_eq with hs | hs <;> rw [hs] at hplace <;> omega

/-- Where neither motion is anti, the half turns of two motions add up. -/
theorem after_after (ht : t ∈ [.static, .dash, .pro]) (ht' : t' ∈ [.static, .dash, .pro])
    (ht'' : t'' ∈ [.static, .dash, .pro]) {h h' : UInt32} (hfit : h.toNat + h'.toNat < UInt32.size)
    (spin : Rotation) (o : Orientation) :
    (o.after t (.half h) spin).after t' (.half h') spin = o.after t'' (.half (h + h')) spin := by
  have hplain : ∀ {t : MotionType}, t ∈ [.static, .dash, .pro] → t ≠ .float ∧ t.flips = 0 := by
    intro t ht
    cases t <;> first | exact absurd ht (by decide) | decide
  apply place_injective
  have hfirst := place_after (hplain ht).1 h spin o
  have hsecond := place_after (hplain ht').1 h' spin (o.after t (.half h) spin)
  have hboth := place_after (hplain ht'').1 (h + h') spin o
  have hsum : (h + h').toNat = h.toNat + h'.toNat := by
    rw [UInt32.toNat_add]
    exact Nat.mod_eq_of_lt hfit
  rw [(hplain ht).2] at hfirst
  rw [(hplain ht').2] at hsecond
  rw [(hplain ht'').2, hsum, Int.natCast_add, Int.mul_add] at hboth
  generalize spin.sense * (h.toNat : Int) = steps at hfirst hboth
  generalize spin.sense * (h'.toNat : Int) = steps' at hsecond hboth
  omega

/-- Turning walks on the cycle of orientations: a step along the spin for every half turn, and two
more steps for an anti shift. So it takes different orientations to different ones, it changes the
category just where a half turn is left over, the same turns against the spin undo it, and the half
turns of motions that are not anti add up. -/
theorem after_walks (ht : t ≠ .float) (h : UInt32) (spin : Rotation) :
    (∀ o : Orientation, ((o.after t (.half h) spin).place : Int) =
      (o.place + spin.sense * h.toNat + 2 * t.flips) % 4) ∧
    (Function.Bijective fun o : Orientation => o.after t (.half h) spin) ∧
    (∀ o : Orientation, (o.after t (.half h) spin).category ≠ o.category ↔ h.toNat % 2 = 1) ∧
    (spin.spins = true → ∀ o : Orientation,
      (o.after t (.half h) spin).after t (.half h) spin.reversed = o) ∧
    (t ∈ [.static, .dash, .pro] → ∀ t' ∈ [.static, .dash, .pro], ∀ t'' ∈ [.static, .dash, .pro],
      ∀ h' : UInt32, h.toNat + h'.toNat < UInt32.size → ∀ o : Orientation,
      (o.after t (.half h) spin).after t' (.half h') spin =
        o.after t'' (.half (h + h')) spin) :=
  ⟨place_after ht h spin, bijective_after ht h spin, category_after_ne_iff ht h spin,
    after_reversed ht h, fun hp _ hp' _ hp'' _ hfit => after_after hp hp' hp'' hfit spin⟩

/-- With the most half turns that are counted, against the clock, an anti shift ends along the ring,
and turned back it points in again. A dash and a pro shift can share as many. -/
theorem after_walks_most : (MotionType.anti ≠ .float) ∧
    (inward.after .anti (.half 4294967295) .ccw).place = 3 ∧
    (inward.after .anti (.half 4294967295) .ccw).category ≠ inward.category ∧
    (inward.after .anti (.half 4294967295) .ccw).after .anti (.half 4294967295) .cw = inward ∧
    (inward.after .dash (.half 4294967294) .ccw).after .pro (.half 1) .ccw =
      inward.after .static (.half 4294967295) .ccw := by
  have hanti : MotionType.anti ≠ .float := by decide
  have hdash : MotionType.dash ≠ .float := by decide
  obtain ⟨hplace, -, hcategory, hback, -⟩ := after_walks hanti 4294967295 .ccw
  obtain ⟨-, -, -, -, hadd⟩ := after_walks hdash 4294967294 .ccw
  refine ⟨hanti, ?_, (hcategory inward).mpr (by decide), hback rfl inward, ?_⟩
  · exact Int.natCast_inj.mp ((hplace inward).trans (by decide))
  · exact hadd (by decide) .pro (by decide) .static (by decide) 1 (by decide) inward

end Orientation

end KineticAlphabet
