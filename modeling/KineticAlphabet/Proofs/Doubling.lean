import KineticAlphabet.Proofs.Rounding
/-!
Doubling a double. It takes a magnitude to the next binade with all its bits, so nothing is rounded
off; only what gets too large becomes infinite.
-/
namespace KineticAlphabet.Binary64

theorem mantissa_lt (rank : Nat) : mantissa rank < 2 ^ 53 := by
  have hmod := Nat.mod_lt rank (show 0 < binade by decide)
  have hbinade : 2 * binade = 2 ^ 53 := by decide
  rw [mantissa]
  split <;> omega

theorem le_exponent (rank : Nat) : -1074 ≤ exponent rank := by
  rw [exponent]
  omega

theorem floor_le_roundHalfEven (x : Rat) : x.floor ≤ roundHalfEven x := by
  simp only [roundHalfEven]
  split
  · exact le_rfl
  · split
    · omega
    · split <;> omega

/-- What lies beyond the last binade rounds to infinity. -/
theorem nearestRank_of_large {x : Rat} (h : 2 ^ (1024 : Int) ≤ x) :
    nearestRank x = infinityRank := by
  have hpos : 0 < x := (two_zpow_pos 1024).trans_le h
  obtain ⟨hlow, hhigh⟩ := floorLog2_bounds hpos
  have hlog : 1024 ≤ floorLog2 x := by
    have hlt := (zpow_lt_zpow_iff_right₀ (by norm_num : (1 : Rat) < 2)).mp (h.trans_lt hhigh)
    omega
  have hgrid : gridExponent x = floorLog2 x - 52 := by
    rw [gridExponent]
    omega
  -- on its grid it has the 52 bits of a whole binade at least
  have hpoint : ((binade : Int) : Rat) ≤ x * 2 ^ (-gridExponent x) := calc
    ((binade : Int) : Rat) = 2 ^ (52 : Int) := by norm_num [binade]
    _ = 2 ^ floorLog2 x * 2 ^ (-gridExponent x) := by
      rw [← zpow_add₀ (by norm_num), hgrid]
      congr 1
      omega
    _ ≤ x * 2 ^ (-gridExponent x) := mul_le_mul_of_nonneg_right hlow (two_zpow_pos _).le
  have hround := (Rat.le_floor_iff.mpr hpoint).trans (floor_le_roundHalfEven _)
  have hgrids : 2046 * binade ≤ (gridExponent x + 1074).toNat * binade :=
    Nat.mul_le_mul_right _ (by omega)
  rw [nearestRank, if_neg (not_le.mpr hpos)]
  refine Nat.min_eq_left ?_
  simp only [infinityRank]
  omega

/-- Twice a magnitude is a magnitude. -/
theorem magnitude_nearestRank_doubled {rank : Nat} (h : 2 * magnitude rank < 2 ^ (1024 : Int)) :
    magnitude (nearestRank (2 * magnitude rank)) = 2 * magnitude rank ∧
      nearestRank (2 * magnitude rank) < infinityRank := by
  refine magnitude_nearestRank (e := exponent rank + 1) ?_ (mantissa_lt rank) ?_ h
  · rw [zpow_add_one₀ (by norm_num), magnitude]
    ring
  · exact (le_exponent rank).trans (by omega)

/-- Twice a number is a number, unless it is too large. -/
theorem toRat?_doubled {x : Binary64} {r : Rat} (h : x.toRat? = some r) :
    x.doubled.toRat? = if 2 * |r| < 2 ^ (1024 : Int) then some (2 * r) else none := by
  cases x with
  | nan => cases h
  | ranked negative rank =>
    simp only [toRat?] at h
    split at h
    case isTrue => cases h
    have habs : |r| = magnitude rank := by
      have hnonneg := abs_of_nonneg (magnitude_nonneg rank)
      cases negative <;> cases h <;> simp [hnonneg]
    rw [habs]
    by_cases hlarge : 2 * magnitude rank < 2 ^ (1024 : Int)
    · rw [if_pos hlarge, doubled, toRat?_ofMagnitude (magnitude_nearestRank_doubled hlarge)]
      cases negative <;> cases h <;> simp
    · have hrank := nearestRank_of_large (not_lt.mp hlarge)
      rw [if_neg hlarge, doubled, ofMagnitude, toRat?, if_pos hrank]

end KineticAlphabet.Binary64
