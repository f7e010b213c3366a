import KineticAlphabet.Config.Basic
/-!
Which configurations the check lets pass: those with some beats and attempts, a level and an
intensity that make sense, and what their mode asks for. The slices of a circular one make up its
length, whatever it is. The check within limits lets those pass that are no larger besides.
-/
namespace KineticAlphabet

namespace Binary64

theorem magnitude_nonneg (rank : Nat) : 0 ≤ magnitude rank :=
  Rat.mul_nonneg Rat.natCast_nonneg (Rat.zpow_nonneg (by decide))

theorem magnitude_zero : magnitude 0 = 0 := by
  simp [magnitude, mantissa, binade]

/-- A finite double that does not lie below zero is a number from zero on. -/
theorem exists_toRat?_nonneg {x : Binary64} (hf : x.isFinite = true)
    (hn : x.lt (.zero false) = false) : ∃ r, x.toRat? = some r ∧ 0 ≤ r := by
  obtain ⟨r, hr⟩ := Option.isSome_iff_exists.mp hf
  refine ⟨r, hr, ?_⟩
  cases x with
  | nan => cases hr
  | ranked negative rank =>
    simp only [toRat?] at hr
    split at hr
    · cases hr
    · cases hr
      cases negative with
      | false => exact magnitude_nonneg _
      | true =>
        have hrank : rank.val = 0 := by simpa [lt, place?, zero] using hn
        simp [hrank, magnitude_zero]

end Binary64

namespace Config

variable {c : Config}

/-- What the check of a configuration makes sure of. -/
structure Admitted (c : Config) : Prop where
  length_pos : 0 < c.length
  level_pos : 1 ≤ c.level
  level_le : c.level ≤ 3
  finite : c.turnIntensity.isFinite = true
  nonneg : c.turnIntensity.lt (.zero false) = false
  attempts_pos : 0 < c.maxAttempts
  types : c.mode = .freeform → c.letterTypes ≠ []
  divisible : c.mode = .circular → c.length % c.slice.repeats = 0
  quarterable : c.mode = .circular → c.slice = .quartered → c.cap.has .rotated = true

theorem checkMode_eq_ok_iff : c.checkMode = .ok () ↔
    (c.mode = .freeform → c.letterTypes ≠ []) ∧
    (c.mode = .circular → c.length % c.slice.repeats = 0) ∧
    (c.mode = .circular → c.slice = .quartered → c.cap.has .rotated = true) := by
  unfold checkMode
  cases c.mode with
  | freeform => cases c.letterTypes <;> simp
  | circular =>
    by_cases hd : c.length % c.slice.repeats = 0
    · simp only [hd, ne_eq, not_true, if_false]
      cases hs : c.slice <;> cases hr : c.cap.has .rotated <;> simp
    · simp [hd]

theorem check_eq_ok_iff : c.check = .ok () ↔ c.Admitted := by
  unfold check
  constructor
  · intro h
    split at h
    case isTrue => cases h
    case isFalse hlen =>
    split at h
    case isTrue => cases h
    case isFalse hlevel =>
    split at h
    case isTrue => cases h
    case isFalse hturns =>
    split at h
    case isTrue => cases h
    case isFalse hattempts =>
    obtain ⟨ht, hd, hq⟩ := checkMode_eq_ok_iff.mp h
    simp only [Bool.not_eq_true', Bool.not_eq_false, Bool.and_eq_true, decide_eq_true_eq] at hlevel
    simp only [Bool.or_eq_true, Bool.not_eq_true', not_or, Bool.not_eq_false,
      Bool.not_eq_true] at hturns
    exact ⟨Nat.pos_of_ne_zero hlen, hlevel.1, hlevel.2, hturns.1, hturns.2,
      Nat.pos_of_ne_zero hattempts, ht, hd, hq⟩
  · intro h
    have hlen := Nat.ne_of_gt h.length_pos
    have hattempts := Nat.ne_of_gt h.attempts_pos
    simp only [hlen, hattempts, h.level_pos, h.level_le, h.finite, h.nonneg, if_false, decide_true,
      Bool.and_true, Bool.not_true, Bool.or_false, Bool.false_eq_true]
    exact checkMode_eq_ok_iff.mpr ⟨h.types, h.divisible, h.quarterable⟩

/-- In freeform mode no check looks at the length, but that there is one. -/
theorem check_withLength (h : c.check = .ok ()) (hm : c.mode = .freeform)
    {n : Nat} (hn : 0 < n) : ({ c with length := n } : Config).check = .ok () := by
  have hne : c.mode ≠ .circular := by simp [hm]
  exact check_eq_ok_iff.mpr { check_eq_ok_iff.mp h with
    length_pos := hn
    divisible := fun h => absurd h hne }

/-- What the check within limits makes sure of. -/
structure KeepsTo (limits : Limits) (c : Config) : Prop where
  admitted : c.Admitted
  length_le : c.length ≤ limits.length
  turnIntensity_le : limits.turnIntensity.lt c.turnIntensity = false
  attempts_le : c.maxAttempts ≤ limits.attempts

theorem checkWithin_eq_ok_iff {limits : Limits} :
    c.checkWithin limits = .ok () ↔ c.KeepsTo limits := by
  unfold checkWithin
  cases hcheck : c.check with
  | error fault =>
    have hnot : ¬ c.Admitted := fun h => by
      rw [check_eq_ok_iff.mpr h] at hcheck
      cases hcheck
    exact ⟨nofun, fun h => absurd h.admitted hnot⟩
  | ok u =>
    have hadmitted : c.Admitted := check_eq_ok_iff.mp hcheck
    constructor
    · intro h
      simp only [bind, Except.bind] at h
      split at h
      case isTrue => cases h
      case isFalse hlength =>
      split at h
      case isTrue => cases h
      case isFalse hturns =>
      split at h
      case isTrue => cases h
      case isFalse hattempts =>
      exact ⟨hadmitted, Nat.not_lt.mp hlength, eq_false_of_ne_true hturns, Nat.not_lt.mp hattempts⟩
    · intro h
      simp [bind, Except.bind, Nat.not_lt.mpr h.length_le, h.turnIntensity_le,
        Nat.not_lt.mpr h.attempts_le]

/-- The advanced configuration passes its check. -/
theorem admitted_advanced : advanced.Admitted := by
  constructor <;> decide +kernel

/-- It still passes in circular mode, with any CAP type and a slice of half its length. -/
theorem admitted_advanced_halved (cap : Cap) : (advanced.withCap cap .halved).Admitted :=
  { admitted_advanced with
    types := nofun
    divisible := by simp [withCap, advanced, standard, Slice.repeats]
    quarterable := nofun }

/-- The slices of a circular sequence make up its length. -/
theorem Admitted.repeats_mul_sliceLength (h : c.Admitted) (hm : c.mode = .circular) :
    c.slice.repeats * c.sliceLength = c.length := by
  rw [sliceLength, hm]
  exact Nat.mul_div_cancel' (Nat.dvd_of_mod_eq_zero (h.divisible hm))

theorem Admitted.sliceLength_pos (h : c.Admitted) (hm : c.mode = .circular) :
    0 < c.sliceLength := by
  have hp := h.length_pos
  rw [← h.repeats_mul_sliceLength hm] at hp
  exact Nat.pos_of_mul_pos_left hp

/-- The intensity is a number from zero on. -/
theorem Admitted.exists_intensity (h : c.Admitted) :
    ∃ most, c.turnIntensity.toRat? = some most ∧ 0 ≤ most :=
  Binary64.exists_toRat?_nonneg h.finite h.nonneg

end Config

end KineticAlphabet
