import KineticAlphabet.Generation.Pick
import KineticAlphabet.Reversal
import KineticAlphabet.Proofs.Truncating
/-!
Doubles that count. A number counts turns if nothing stands behind the point of its double: of an
infinite double nothing at all is left there, and one that is not too large is twice the number. The
most turns that may be drawn are cut off in the same way from the intensity or its double, and the
reversals that turns ask for from half of them.
-/
namespace KineticAlphabet

namespace Binary64

variable {x : Binary64} {a : Rat}

theorem toRat?_ofRat_natCast {n : Nat} (h : n < 2 ^ 53) : (ofRat n).toRat? = some (n : Rat) := by
  rw [ofRat_of_nonneg (Nat.cast_nonneg n)]
  exact toRat?_ofMagnitude (magnitude_nearestRank_natCast h) false

/-- Half a number that is not rounded is rounded once only. -/
theorem halved_ofRat (ha : 0 ≤ a)
    (h : magnitude (nearestRank a) = a ∧ nearestRank a < infinityRank) :
    (ofRat a).halved = ofRat (a / 2) := by
  rw [ofRat_of_nonneg ha, ofRat_of_nonneg (by positivity), ofMagnitude, halved, if_neg h.2.ne, h.1]

/-- A number from zero on is whole if nothing is left of its whole part. -/
theorem sub_floor_eq_zero_iff (ha : 0 ≤ a) : a - a.floor = 0 ↔ ∃ k : Nat, a = k := by
  constructor
  · intro h
    obtain ⟨k, hk⟩ := Int.eq_ofNat_of_zero_le (Rat.le_floor_iff.mpr ha : 0 ≤ a.floor)
    exact ⟨k, by rw [sub_eq_zero.mp h, hk]; rfl⟩
  · rintro ⟨k, rfl⟩
    rw [ratFloor_natCast, Int.cast_natCast, sub_self]

/-- A finite double that is not below zero is a number from zero on. -/
theorem not_refused_iff : (!x.isFinite || x.lt (.zero false)) = false ↔
    ∃ v, x.toRat? = some v ∧ 0 ≤ v := by
  rw [Bool.or_eq_false_iff, Bool.not_eq_false']
  constructor
  · rintro ⟨hfinite, hlt⟩
    exact exists_toRat?_nonneg hfinite hlt
  · rintro ⟨v, hv, hnonneg⟩
    refine ⟨by rw [isFinite, hv]; rfl, ?_⟩
    rw [lt_eq_decide hv (toRat?_zero false), decide_eq_false (not_lt.mpr hnonneg)]

end Binary64

namespace Turns

variable {x : Binary64} {t : Turns} {v : Rat}

theorem natCast_lt_large {k : Nat} (h : k ≤ most) : (k : Rat) < 2 ^ (1024 : Int) := calc
  (k : Rat) ≤ (most : Rat) := by exact_mod_cast h
  _ < 2 ^ (32 : Int) := by norm_num [most]
  _ < 2 ^ (1024 : Int) := zpow_lt_zpow_right₀ (by norm_num) (by norm_num)

/-- The double of a number has nothing behind the point and can be counted if it is a whole number
of 32 bits. An infinite one never can, since infinity less infinity is no number. -/
theorem not_uncounted_iff (hx : x.toRat? = some v) (hv : 0 ≤ v) :
    (!x.doubled.fract.equal (.zero false) || (Binary64.ofRat most).lt x.doubled) = false ↔
      ∃ k : Nat, 2 * v = k ∧ k ≤ most := by
  have hdouble : 0 ≤ 2 * v := by positivity
  have hmost : (Binary64.ofRat most).toRat? = some (most : Rat) :=
    Binary64.toRat?_ofRat_natCast (by decide)
  have hdoubled := Binary64.toRat?_doubled hx
  rw [abs_of_nonneg hv] at hdoubled
  rw [Bool.or_eq_false_iff, Bool.not_eq_false']
  split at hdoubled
  case isTrue =>
    rw [Binary64.equal_eq_decide (Binary64.toRat?_fract hdoubled hdouble)
        (Binary64.toRat?_zero false), Binary64.lt_eq_decide hmost hdoubled,
      decide_eq_true_iff, decide_eq_false_iff_not, Binary64.sub_floor_eq_zero_iff hdouble, not_lt]
    constructor
    · rintro ⟨⟨k, hk⟩, hle⟩
      rw [hk] at hle
      exact ⟨k, hk, by exact_mod_cast hle⟩
    · rintro ⟨k, hk, hle⟩
      refine ⟨⟨k, hk⟩, ?_⟩
      rw [hk]
      exact_mod_cast hle
  case isFalse hlarge =>
    rw [Binary64.fract_of_infinite hdoubled]
    constructor
    · intro h
      exact absurd h.1 (by decide)
    · rintro ⟨k, hk, hle⟩
      exact absurd (hk ▸ natCast_lt_large hle) hlarge

section Counted

variable {k : Nat} (hx : x.toRat? = some v) (hv : 0 ≤ v) (hk : 2 * v = k) (hle : k ≤ most)
include hx hv hk hle

theorem toRat?_doubled_eq : x.doubled.toRat? = some (k : Rat) := by
  have hsmall : 2 * |v| < 2 ^ (1024 : Int) := by
    rw [abs_of_nonneg hv, hk]
    exact natCast_lt_large hle
  rw [Binary64.toRat?_doubled hx, if_pos hsmall, hk]

/-- What can be counted is not cut off. -/
theorem saturate_doubled : x.doubled.saturate most = k := by
  rw [Binary64.saturate_eq (toRat?_doubled_eq hx hv hk hle) (Nat.cast_nonneg k),
    Binary64.ratFloor_natCast, Int.toNat_natCast, Nat.min_eq_right hle]

end Counted

/-- A number counts turns if it is finite, not negative, and twice it a whole number of 32 bits. -/
theorem ofNumber_eq_ok_iff : ofNumber x = .ok t ↔ ∃ (v : Rat) (k : Nat),
    x.toRat? = some v ∧ 0 ≤ v ∧ 2 * v = k ∧ k ≤ 4294967295 ∧ t = half (.ofNat k) := by
  constructor
  · intro h
    simp only [ofNumber] at h
    split at h
    case isTrue => cases h
    case isFalse haccepted =>
    split at h
    case isTrue => cases h
    case isFalse hcounted =>
    obtain ⟨v, hx, hv⟩ := Binary64.not_refused_iff.mp (eq_false_of_ne_true haccepted)
    obtain ⟨k, hk, hle⟩ := (not_uncounted_iff hx hv).mp (eq_false_of_ne_true hcounted)
    rw [saturate_doubled hx hv hk hle] at h
    exact ⟨v, k, hx, hv, hk, hle, (Except.ok.inj h).symm⟩
  · rintro ⟨v, k, hx, hv, hk, hle, rfl⟩
    have haccepted := Binary64.not_refused_iff.mpr ⟨v, hx, hv⟩
    have hcounted := (not_uncounted_iff hx hv).mpr ⟨k, hk, hle⟩
    simp only [ofNumber, haccepted, hcounted, Bool.false_eq_true, if_false]
    rw [saturate_doubled hx hv hk hle]

/-- Half of a count is not rounded. -/
theorem halved_count (n : UInt32) :
    (Binary64.ofRat n.toNat).halved = .ofRat ((n.toNat : Rat) / 2) :=
  Binary64.halved_ofRat (Nat.cast_nonneg _)
    (Binary64.magnitude_nearestRank_natCast (n.toNat_lt.trans (by decide)))

theorem value?_half (n : UInt32) : (half n).value? = some (.ofRat ((n.toNat : Rat) / 2)) :=
  congrArg some (halved_count n)

theorem toJson_half (n : UInt32) : (half n).toJson = .float (.ofRat ((n.toNat : Rat) / 2)) :=
  congrArg Json.float (halved_count n)

theorem toRat?_ofRat_half (n : UInt32) :
    (Binary64.ofRat ((n.toNat : Rat) / 2)).toRat? = some ((n.toNat : Rat) / 2) := by
  rw [Binary64.ofRat_of_nonneg (by positivity)]
  exact Binary64.toRat?_ofMagnitude (Binary64.magnitude_nearestRank_half n.toNat_lt) false

/-- So a number counts the half turns that it is. -/
theorem ofNumber_half (n : UInt32) : ofNumber (.ofRat ((n.toNat : Rat) / 2)) = .ok (half n) := by
  refine ofNumber_eq_ok_iff.mpr ⟨_, n.toNat, toRat?_ofRat_half n, by positivity, by ring, ?_, ?_⟩
  · exact Nat.le_of_lt_succ n.toNat_lt
  · rw [UInt32.ofNat_toNat]

/-- A quarter of a count is not rounded either. -/
theorem toRat?_halved_half (n : UInt32) :
    (Binary64.ofRat ((n.toNat : Rat) / 2)).halved.toRat? = some ((n.toNat : Rat) / 4) := by
  have hquarter : (n.toNat : Rat) / 2 / 2 = (n.toNat : Rat) / 4 := by ring
  rw [Binary64.halved_ofRat (by positivity) (Binary64.magnitude_nearestRank_half n.toNat_lt),
    hquarter]
  have hn : n.toNat < 2 ^ 53 := n.toNat_lt.trans (by decide)
  refine Binary64.toRat?_ofRat (m := n.toNat) (e := -2) ?_ hn (by decide) ?_
  · norm_num [div_eq_mul_inv]
  · exact (div_le_self (Nat.cast_nonneg _) (by norm_num)).trans_lt
      (natCast_lt_large (Nat.le_of_lt_succ n.toNat_lt))

/-- More than one turn asks for a reversal for every two turns, but for two at most. -/
theorem reversals_half (n : UInt32) :
    (half n).reversals = if 2 < n.toNat then min maxReversals (n.toNat / 4) else 0 := by
  have hone : (Binary64.ofRat 1).toRat? = some ((1 : Nat) : Rat) :=
    Binary64.toRat?_ofRat_natCast (n := 1) (by decide)
  have htwo : (Binary64.ofRat maxReversals).toRat? = some (maxReversals : Rat) :=
    Binary64.toRat?_ofRat_natCast (by decide)
  have hmany : ((1 : Nat) : Rat) < (n.toNat : Rat) / 2 ↔ 2 < n.toNat := by
    rw [lt_div_iff₀ (by norm_num)]
    norm_cast
  simp only [reversals, value?_half, Binary64.lt_eq_decide hone (toRat?_ofRat_half n),
    decide_eq_true_eq, hmany]
  congr 1
  have hfloor : Rat.floor ((n.toNat : Rat) / 4) = (n.toNat / 4 : Nat) :=
    Rat.floor_natCast_div_natCast n.toNat 4
  have hleast := Binary64.toRat?_smaller
    (Binary64.toRat?_floor (toRat?_halved_half n) (by positivity)) htwo
  rw [hfloor, Int.cast_natCast, ← Nat.cast_min] at hleast
  rw [Binary64.saturate_eq hleast (Nat.cast_nonneg _), Binary64.ratFloor_natCast,
    Int.toNat_natCast, maxReversals]
  omega

end Turns

namespace Generation

variable {c : Config} {most : Rat}

/-- The most whole turns are the whole part of the intensity, where 16 bits hold it. -/
theorem wholeLimit_eq (hc : c.Admitted) :
    wholeLimit c = min 65535 (c.turnIntensity.floor?.getD 0).toNat := by
  obtain ⟨most, hmost, hpos⟩ := hc.exists_intensity
  rw [Binary64.floor?, hmost]
  exact Binary64.saturate_floor hmost hpos 65535

/-- The most half turns are the whole part of twice the intensity, where 32 bits hold it. -/
theorem halfLimit_eq_min (hmost : c.turnIntensity.toRat? = some most) (hpos : 0 ≤ most) :
    halfLimit c = min 4294967295 (2 * most).floor.toNat := by
  have hdoubled := Binary64.toRat?_doubled hmost
  rw [abs_of_nonneg hpos] at hdoubled
  split at hdoubled
  case isTrue => exact Binary64.saturate_floor hdoubled (by positivity) 4294967295
  case isFalse hlarge =>
    -- an infinite double is cut off as every large number is
    have hfloor : (Turns.most : Int) ≤ (2 * most).floor :=
      Rat.le_floor_iff.mpr ((Turns.natCast_lt_large le_rfl).le.trans (not_lt.mp hlarge))
    rw [halfLimit, Binary64.doubled_eq_infinity hmost hpos (not_lt.mp hlarge),
      Binary64.saturate_floor_infinity (Turns.natCast_lt_large le_rfl).le]
    exact (Nat.min_eq_left (by omega)).symm

/-- Told by the doubled intensity, of which all is left that can be counted if it is infinite. -/
theorem halfLimit_eq (hc : c.Admitted) :
    halfLimit c = c.turnIntensity.doubled.floor?.elim 4294967295 fun n =>
      min 4294967295 n.toNat := by
  obtain ⟨most, hmost, hpos⟩ := hc.exists_intensity
  rw [Binary64.floor?, Binary64.toRat?_doubled hmost, abs_of_nonneg hpos]
  split
  case isTrue => exact halfLimit_eq_min hmost hpos
  case isFalse hlarge =>
    rw [halfLimit, Binary64.doubled_eq_infinity hmost hpos (not_lt.mp hlarge),
      Binary64.saturate_floor_infinity (Turns.natCast_lt_large le_rfl).le]
    rfl

end Generation

end KineticAlphabet
