import KineticAlphabet.Number.Shortest
import KineticAlphabet.Proofs.Admission
import KineticAlphabet.Turns
import Mathlib.Algebra.Order.Field.Power
import Mathlib.Data.Rat.Floor
import Mathlib.Tactic.FieldSimp
import Mathlib.Tactic.Linarith
import Mathlib.Tactic.Positivity
import Mathlib.Tactic.Ring
/-!
What rounding keeps. The ranks of a binade are as many points of one grid, and a magnitude of at
most 53 bits is a point of its grid. So rounding such a magnitude takes it to its own rank and loses
nothing, as long as the grid is fine enough and the magnitude is not too large.
-/
namespace KineticAlphabet.Binary64

theorem two_zpow_pos (e : Int) : (0 : Rat) < 2 ^ e := by positivity

theorem natCast_log2_bounds {n : Nat} (hn : 0 < n) :
    (2 : Rat) ^ (n.log2 : Int) ≤ n ∧ (n : Rat) < 2 ^ ((n.log2 : Int) + 1) := by
  have hle : (2 : Rat) ^ n.log2 ≤ n := by exact_mod_cast Nat.log2_self_le (Nat.ne_of_gt hn)
  have hlt : (n : Rat) < 2 ^ (n.log2 + 1) := by exact_mod_cast Nat.lt_log2_self
  exact ⟨by exact_mod_cast hle, by exact_mod_cast hlt⟩

/-- The number of bits of numerator and denominator tells the binary logarithm up to one. -/
theorem quotient_bounds {x : Rat} (hx : 0 < x) {g : Int}
    (hg : g = (x.num.natAbs.log2 : Int) - x.den.log2) :
    (2 : Rat) ^ (g - 1) ≤ x ∧ x < 2 ^ (g + 1) := by
  have hnum : 0 < x.num.natAbs := Int.natAbs_pos.mpr (ne_of_gt (Rat.num_pos.mpr hx))
  obtain ⟨hn, hn'⟩ := natCast_log2_bounds hnum
  obtain ⟨hd, hd'⟩ := natCast_log2_bounds x.den_pos
  have hquot : x * x.den = x.num.natAbs := by
    have habs : (x.num.natAbs : Int) = x.num := Int.natAbs_of_nonneg (Rat.num_pos.mpr hx).le
    have hcast : (x.num.natAbs : Rat) = x.num := by rw [← habs]; simp
    rw [hcast]
    exact Rat.mul_den_eq_num x
  have htwo : (2 : Rat) ≠ 0 := by norm_num
  constructor
  · refine le_of_mul_le_mul_right ?_ (two_zpow_pos ((x.den.log2 : Int) + 1))
    calc (2 : Rat) ^ (g - 1) * 2 ^ ((x.den.log2 : Int) + 1)
      _ = 2 ^ (x.num.natAbs.log2 : Int) := by rw [← zpow_add₀ htwo, hg]; congr 1; omega
      _ ≤ x * x.den := hquot ▸ hn
      _ ≤ x * 2 ^ ((x.den.log2 : Int) + 1) := mul_le_mul_of_nonneg_left hd'.le hx.le
  · refine lt_of_mul_lt_mul_right ?_ (two_zpow_pos (x.den.log2 : Int)).le
    calc x * 2 ^ (x.den.log2 : Int)
      _ ≤ x * x.den := mul_le_mul_of_nonneg_left hd hx.le
      _ < 2 ^ ((x.num.natAbs.log2 : Int) + 1) := hquot ▸ hn'
      _ = 2 ^ (g + 1) * 2 ^ (x.den.log2 : Int) := by rw [← zpow_add₀ htwo, hg]; congr 1; omega

theorem floorLog2_bounds {x : Rat} (hx : 0 < x) :
    (2 : Rat) ^ floorLog2 x ≤ x ∧ x < 2 ^ (floorLog2 x + 1) := by
  obtain ⟨hlow, hhigh⟩ := quotient_bounds hx rfl
  simp only [floorLog2]
  split
  case isTrue h => exact ⟨h, hhigh⟩
  case isFalse h => exact ⟨hlow, by rw [sub_add_cancel]; exact not_le.mp h⟩

/-- A bound by a power of two bounds the binary logarithm. -/
theorem floorLog2_lt {x : Rat} (hx : 0 < x) {e : Int} (h : x < 2 ^ e) : floorLog2 x < e := by
  by_contra hn
  have hle : (2 : Rat) ^ e ≤ 2 ^ floorLog2 x :=
    zpow_le_zpow_right₀ (by norm_num) (not_lt.mp hn)
  exact absurd h (not_lt.mpr (hle.trans (floorLog2_bounds hx).1))

theorem ratFloor_natCast (k : Nat) : Rat.floor k = k := Rat.floor_intCast k

theorem roundHalfEven_natCast (k : Nat) : roundHalfEven k = k := by
  simp [roundHalfEven, ratFloor_natCast]

/-- The ranks of a binade are as many points of its grid, and those of the first two binades lie on
one. -/
theorem magnitude_grid {j k : Nat} (hk : k < 2 * binade) (h : j = 0 ∨ binade ≤ k) :
    magnitude (j * binade + k) = k * (2 : Rat) ^ ((j : Int) - 1074) := by
  have hparts : mantissa (j * binade + k) = k ∧ exponent (j * binade + k) = (j : Int) - 1074 := by
    by_cases hlow : k < binade
    · obtain rfl : j = 0 := h.resolve_right (by omega)
      rw [Nat.zero_mul, Nat.zero_add, mantissa, exponent, if_pos hlow, Nat.div_eq_of_lt hlow]
      exact ⟨rfl, rfl⟩
    · obtain ⟨i, rfl⟩ := Nat.exists_eq_add_of_le (not_lt.mp hlow)
      have hi : i < binade := by omega
      have hsum : j * binade + (binade + i) = binade * (j + 1) + i := by ring
      have hge : ¬ binade * (j + 1) + i < binade := by
        have := Nat.le_mul_of_pos_right binade (Nat.succ_pos j)
        omega
      rw [hsum, mantissa, exponent, if_neg hge, Nat.mul_add_mod, Nat.mod_eq_of_lt hi,
        Nat.mul_add_div (by decide), Nat.div_eq_of_lt hi]
      exact ⟨rfl, by omega⟩
  rw [magnitude, hparts.1, hparts.2]

/-- A grid has one point more than a binade has ranks twice: the first of the next grid. -/
theorem magnitude_grid_le {j k : Nat} (hk : k ≤ 2 * binade) (h : j = 0 ∨ binade ≤ k) :
    magnitude (j * binade + k) = k * (2 : Rat) ^ ((j : Int) - 1074) := by
  rcases hk.lt_or_eq with hk | rfl
  · exact magnitude_grid hk h
  · have hcarry : j * binade + 2 * binade = (j + 1) * binade + binade := by ring
    have hstep : ((j + 1 : Nat) : Int) - 1074 = ((j : Int) - 1074) + 1 := by
      push_cast
      ring
    rw [hcarry, magnitude_grid (by decide) (.inr le_rfl), hstep, zpow_add_one₀ (by norm_num)]
    push_cast
    ring

/-- Every rank is a point of a grid. -/
theorem exists_grid (r : Nat) : ∃ j k, r = j * binade + k ∧ k < 2 * binade ∧
    (j = 0 ∨ binade ≤ k) ∧ exponent r = (j : Int) - 1074 := by
  have hpos : 0 < binade := by decide
  have hdiv := Nat.div_add_mod r binade
  have hmod := Nat.mod_lt r hpos
  cases hq : r / binade with
  | zero =>
    rw [hq, Nat.mul_zero, Nat.zero_add] at hdiv
    exact ⟨0, r, by omega, by omega, .inl rfl, by rw [exponent, hq]; rfl⟩
  | succ j =>
    rw [hq, Nat.mul_succ, Nat.mul_comm] at hdiv
    exact ⟨j, binade + r % binade, by omega, by omega, .inr (Nat.le_add_right _ _), by
      rw [exponent, hq]
      omega⟩

/-- The next magnitude is one unit of the grid further. -/
theorem magnitude_succ (r : Nat) : magnitude (r + 1) = magnitude r + 2 ^ exponent r := by
  obtain ⟨j, k, rfl, hk, hj, he⟩ := exists_grid r
  have hj' : j = 0 ∨ binade ≤ k + 1 := hj.imp_right fun h => h.trans (Nat.le_succ k)
  rw [Nat.add_assoc, magnitude_grid_le hk hj', magnitude_grid hk hj, he]
  push_cast
  ring

theorem magnitude_strictMono : StrictMono magnitude :=
  strictMono_nat_of_lt_succ fun r => by
    rw [magnitude_succ]
    exact lt_add_of_pos_right _ (two_zpow_pos _)

theorem magnitude_infinityRank : magnitude infinityRank = 2 ^ (1024 : Int) := by
  have hsplit : infinityRank = 2046 * binade + binade := by decide
  rw [hsplit, magnitude_grid (by decide) (.inr le_rfl)]
  have hbinade : (binade : Rat) = 2 ^ (52 : Int) := by norm_num [binade]
  rw [hbinade, ← zpow_add₀ (by norm_num)]
  rfl

theorem magnitude_lt {r : Nat} (h : r < infinityRank) : magnitude r < 2 ^ (1024 : Int) :=
  magnitude_infinityRank ▸ magnitude_strictMono h

theorem exponent_mono {r s : Nat} (h : r ≤ s) : exponent r ≤ exponent s := by
  have := Nat.div_le_div_right (c := binade) h
  simp only [exponent]
  omega

/-- What rounds to a double is at most half a unit away from it. -/
theorem abs_sub_le_of_roundsTo {r : Nat} {y : Rat} (hr : 0 < r) (h : roundsTo r y = true) :
    |y - magnitude r| ≤ 2 ^ exponent r / 2 := by
  obtain ⟨s, rfl⟩ := Nat.exists_eq_succ_of_ne_zero (Nat.ne_of_gt hr)
  have hbelow := magnitude_succ s
  have habove := magnitude_succ (s + 1)
  have hunit : (2 : Rat) ^ exponent s ≤ 2 ^ exponent (s + 1) :=
    zpow_le_zpow_right₀ (by norm_num) (exponent_mono (Nat.le_succ s))
  have hrange : halfway s ≤ y ∧ y ≤ halfway (s + 1) := by
    simp only [roundsTo, Nat.succ_sub_one] at h
    split at h
    · exact of_decide_eq_true h
    · exact (of_decide_eq_true h).imp le_of_lt le_of_lt
  simp only [halfway] at hrange
  rw [abs_le]
  constructor <;> linarith [hrange.1, hrange.2]

/-- A magnitude that is not too large lies on a fine grid. -/
theorem two_zpow_exponent_lt {r : Nat} {e : Int} (he : -1021 ≤ e) (h : magnitude r < 2 ^ e) :
    (2 : Rat) ^ exponent r < 2 ^ (e - 52) := by
  by_cases hr : r < binade
  · have hexp : exponent r = -1074 := by
      rw [exponent, Nat.div_eq_of_lt hr]
      rfl
    rw [hexp]
    exact zpow_lt_zpow_right₀ (by norm_num) (by omega)
  · have hmantissa : (2 : Rat) ^ (52 : Int) ≤ mantissa r := by
      have hle : 2 ^ 52 ≤ mantissa r := by
        rw [mantissa, if_neg hr]
        exact Nat.le_add_right _ _
      exact_mod_cast hle
    have hle := mul_le_mul_of_nonneg_right hmantissa (two_zpow_pos (exponent r)).le
    refine lt_of_mul_lt_mul_left ?_ (two_zpow_pos 52).le
    calc (2 : Rat) ^ (52 : Int) * 2 ^ exponent r
      _ ≤ magnitude r := hle
      _ < 2 ^ e := h
      _ = 2 ^ (52 : Int) * 2 ^ (e - 52) := by
        rw [← zpow_add₀ (by norm_num)]
        congr 1
        omega

theorem eq_mul_of_units {x y : Rat} {e : Int} (h : x * 2 ^ (-e) = y) : x = y * 2 ^ e := by
  rw [← h, mul_assoc, ← zpow_add₀ (by norm_num), neg_add_cancel, zpow_zero, mul_one]

/-- A number below infinity, told in units of its grid, has 53 bits in front of the point. -/
theorem exists_grid_of_lt {x : Rat} (hpos : 0 < x) (hlarge : x < 2 ^ (1024 : Int)) :
    ∃ (j k : Nat) (y : Rat), gridExponent x = (j : Int) - 1074 ∧ j < 2046 ∧
      x * 2 ^ (-gridExponent x) = y ∧ (k : Rat) ≤ y ∧ y < k + 1 ∧ k < 2 * binade ∧
      (j = 0 ∨ binade ≤ k) := by
  obtain ⟨hlow, hhigh⟩ := floorLog2_bounds hpos
  have hlog : floorLog2 x < 1024 := floorLog2_lt hpos hlarge
  have htwo : (2 : Rat) ≠ 0 := by norm_num
  obtain ⟨j, hj⟩ := Int.eq_ofNat_of_zero_le (a := gridExponent x + 1074)
    (by simp only [gridExponent]; omega)
  have hunit := two_zpow_pos (gridExponent x)
  generalize hy : x * 2 ^ (-gridExponent x) = y
  have hx : x = y * 2 ^ gridExponent x := eq_mul_of_units hy
  have hnonneg : 0 ≤ y := hy ▸ (mul_pos hpos (two_zpow_pos _)).le
  refine ⟨j, ⌊y⌋₊, y, by omega, ?_, rfl, Nat.floor_le hnonneg, Nat.lt_floor_add_one y, ?_, ?_⟩
  · simp only [gridExponent] at hj
    omega
  · refine (Nat.floor_lt hnonneg).mpr ?_
    have hlt : y < 2 ^ (53 : Int) := by
      refine lt_of_mul_lt_mul_right ?_ hunit.le
      rw [← hx, ← zpow_add₀ htwo]
      refine hhigh.trans_le (zpow_le_zpow_right₀ (by norm_num) ?_)
      simp only [gridExponent]
      omega
    exact hlt.trans_eq (by norm_num [binade])
  · by_cases hg : gridExponent x = floorLog2 x - 52
    · right
      refine Nat.le_floor ?_
      have hle : (2 : Rat) ^ (52 : Int) ≤ y := by
        refine le_of_mul_le_mul_right ?_ hunit
        rw [← hx, ← zpow_add₀ htwo, hg]
        exact le_of_eq_of_le (by congr 1; omega) hlow
      exact le_of_eq_of_le (by norm_num [binade]) hle
    · left
      simp only [gridExponent] at hg hj
      omega

theorem grid_rank_lt {j k : Nat} (hj : j < 2046) (hk : k < 2 * binade) :
    j * binade + k < infinityRank := by
  have hle : j * binade ≤ 2045 * binade := Nat.mul_le_mul_right _ (by omega)
  simp only [infinityRank]
  omega

theorem nearestRank_eq_min {x y : Rat} {j : Nat} (hpos : 0 < x)
    (hgrid : gridExponent x = (j : Int) - 1074) (hy : x * 2 ^ (-gridExponent x) = y) :
    nearestRank x = min infinityRank (j * binade + (roundHalfEven y).toNat) := by
  rw [nearestRank, if_neg (not_le.mpr hpos)]
  simp only [hy]
  rw [hgrid, sub_add_cancel, Int.toNat_natCast]

/-- A magnitude on its own grid is rounded to itself, if it is not too large. -/
theorem magnitude_nearestRank_of_point {x : Rat} (hpos : 0 < x) (hlarge : x < 2 ^ (1024 : Int))
    {k : Nat} (hk : x * 2 ^ (-gridExponent x) = k) :
    magnitude (nearestRank x) = x ∧ nearestRank x < infinityRank := by
  obtain ⟨j, i, y, hgrid, hj, hy, hlow, hhigh, hi, hji⟩ := exists_grid_of_lt hpos hlarge
  rw [← hy, hk] at hlow hhigh
  have hle : i ≤ k := by exact_mod_cast hlow
  have hlt : k < i + 1 := by exact_mod_cast hhigh
  obtain rfl : k = i := by omega
  have hnear : nearestRank x = j * binade + k := by
    rw [nearestRank_eq_min hpos hgrid hk, roundHalfEven_natCast, Int.toNat_natCast]
    exact Nat.min_eq_right (grid_rank_lt hj hi).le
  rw [hnear]
  exact ⟨by rw [magnitude_grid hi hji, ← hgrid, ← eq_mul_of_units hk], grid_rank_lt hj hi⟩

/-- A magnitude of 53 bits, not too small and not too large, is rounded to itself. -/
theorem magnitude_nearestRank {x : Rat} {m : Nat} {e : Int} (hx : x = m * 2 ^ e)
    (hm : m < 2 ^ 53) (he : -1074 ≤ e) (hlarge : x < 2 ^ (1024 : Int)) :
    magnitude (nearestRank x) = x ∧ nearestRank x < infinityRank := by
  rcases Nat.eq_zero_or_pos m with rfl | hpos
  · obtain rfl : x = 0 := by rw [hx, Nat.cast_zero, zero_mul]
    exact ⟨magnitude_zero, by decide⟩
  have hxpos : 0 < x := hx ▸ mul_pos (by exact_mod_cast hpos) (two_zpow_pos e)
  have htwo : (2 : Rat) ≠ 0 := by norm_num
  have hlog : floorLog2 x < 53 + e := by
    refine floorLog2_lt hxpos ?_
    rw [hx, zpow_add₀ htwo]
    exact mul_lt_mul_of_pos_right (by exact_mod_cast hm) (two_zpow_pos e)
  -- the grid is no coarser than the last bit of the magnitude
  obtain ⟨i, hi⟩ := Int.eq_ofNat_of_zero_le (a := e - gridExponent x)
    (by simp only [gridExponent]; omega)
  have hpoint : x * 2 ^ (-gridExponent x) = (m * 2 ^ i : Nat) := calc
    x * 2 ^ (-gridExponent x) = m * (2 ^ e * 2 ^ (-gridExponent x)) := by rw [← mul_assoc, ← hx]
    _ = m * 2 ^ (i : Int) := by rw [← zpow_add₀ htwo, ← sub_eq_add_neg, hi]
    _ = (m * 2 ^ i : Nat) := by push_cast; rfl
  exact magnitude_nearestRank_of_point hxpos hlarge hpoint

/-- Whole numbers of 53 bits are doubles. -/
theorem magnitude_nearestRank_natCast {n : Nat} (hlt : n < 2 ^ 53) :
    magnitude (nearestRank n) = n ∧ nearestRank n < infinityRank := by
  have hlarge : (n : Rat) < 2 ^ (1024 : Int) := calc
    (n : Rat) < 2 ^ (53 : Int) := by exact_mod_cast hlt
    _ < 2 ^ (1024 : Int) := zpow_lt_zpow_right₀ (by norm_num) (by norm_num)
  exact magnitude_nearestRank (e := 0) (by simp) hlt (by decide) hlarge

theorem ofRat_of_nonneg {x : Rat} (h : 0 ≤ x) : ofRat x = ofMagnitude false x := by
  rw [ofRat, decide_eq_false (not_lt.mpr h), Rat.abs, if_pos h]

/-- A double of a magnitude that is not rounded is that number, with the sign. -/
theorem toRat?_ofMagnitude {x : Rat}
    (h : magnitude (nearestRank x) = x ∧ nearestRank x < infinityRank) (negative : Bool) :
    (ofMagnitude negative x).toRat? = some (if negative then -x else x) := by
  rw [ofMagnitude, toRat?, if_neg (Nat.ne_of_lt h.2), h.1]

/-- So a double of such a magnitude is that number. -/
theorem toRat?_ofRat {x : Rat} {m : Nat} {e : Int} (hx : x = m * 2 ^ e) (hm : m < 2 ^ 53)
    (he : -1074 ≤ e) (hlarge : x < 2 ^ (1024 : Int)) : (ofRat x).toRat? = some x := by
  have hnonneg : 0 ≤ x := hx ▸ mul_nonneg (Nat.cast_nonneg m) (two_zpow_pos e).le
  rw [ofRat_of_nonneg hnonneg]
  exact toRat?_ofMagnitude (magnitude_nearestRank hx hm he hlarge) false

theorem half_lt {n : Nat} (h : n < 2 ^ 32) : (n : Rat) / 2 < 2 ^ (32 : Int) :=
  (half_le_self (Nat.cast_nonneg n)).trans_lt (by exact_mod_cast h)

/-- Half a number of 32 bits is a double. -/
theorem magnitude_nearestRank_half {n : Nat} (h : n < 2 ^ 32) :
    magnitude (nearestRank ((n : Rat) / 2)) = (n : Rat) / 2 ∧
      nearestRank ((n : Rat) / 2) < infinityRank := by
  refine magnitude_nearestRank (m := n) (e := -1) ?_ (by omega) (by decide) ?_
  · rw [zpow_neg_one, div_eq_mul_inv]
  · exact (half_lt h).trans (zpow_lt_zpow_right₀ (by norm_num) (by norm_num))

end KineticAlphabet.Binary64
