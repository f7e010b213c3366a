import KineticAlphabet.Proofs.Doubling
/-!
Rounding told by what it is for: the nearest magnitude, and of two equally near ones the one of even
rank. The magnitudes grow with their ranks, so only the two around a number can be nearest, and two
ranks that are both even have another one between them. That settles which rank it is.
-/
namespace KineticAlphabet.Binary64

/-- The magnitude at a rank is nearest to a number, and the rank is even if another is as near.
Infinity counts as the next point of the last grid. -/
structure IsNearest (x : Rat) (rank : Nat) : Prop where
  le : rank ≤ infinityRank
  nearest : ∀ other ≤ infinityRank, |x - magnitude rank| ≤ |x - magnitude other|
  even : ∀ other ≤ infinityRank, other ≠ rank →
    |x - magnitude other| = |x - magnitude rank| → rank % 2 = 0

variable {x : Rat} {r s : Nat}

/-- Two ranks as near as each other, both even, have an odd one between them, which is nearer. -/
theorem IsNearest.rank_le (h : IsNearest x r) (h' : IsNearest x s) : s ≤ r := by
  by_contra hn
  have hlt : r < s := not_le.mp hn
  have hsame : |x - magnitude r| = |x - magnitude s| :=
    le_antisymm (h.nearest s h'.le) (h'.nearest r h.le)
  have heven := h.even s h'.le hlt.ne' hsame.symm
  have heven' := h'.even r h.le hlt.ne hsame
  have hlow := magnitude_strictMono (Nat.lt_succ_self r)
  have hhigh : magnitude (r + 1) < magnitude s := magnitude_strictMono (by omega)
  have hnear := h.nearest (r + 1) (hlt.trans_le h'.le)
  rcases abs_eq_abs.mp hsame with he | he
  · linarith
  · have hin : |x - magnitude (r + 1)| < x - magnitude r :=
      abs_lt.mpr ⟨by linarith, by linarith⟩
    exact absurd (hnear.trans_lt hin) (not_lt.mpr (le_abs_self _))

theorem IsNearest.unique (h : IsNearest x r) (h' : IsNearest x s) : r = s :=
  Nat.le_antisymm (h'.rank_le h) (h.rank_le h')

/-- From a number above a rank, lower ranks are further away. -/
theorem abs_sub_lt_of_below (hx : magnitude r ≤ x) (h : s < r) :
    |x - magnitude r| < |x - magnitude s| := by
  have hlt := magnitude_strictMono h
  rw [abs_of_nonneg (by linarith), abs_of_nonneg (by linarith)]
  linarith

/-- From a number below a rank, higher ranks are further away. -/
theorem abs_sub_lt_of_above (hx : x ≤ magnitude r) (h : r < s) :
    |x - magnitude r| < |x - magnitude s| := by
  have hlt := magnitude_strictMono h
  rw [abs_of_nonpos (by linarith), abs_of_nonpos (by linarith)]
  linarith

/-- The nearer one of the ranks around a number is the nearest of all. -/
theorem IsNearest.of_around {low : Nat} (hrank : low < infinityRank) (hlow : magnitude low ≤ x)
    (hhigh : x ≤ magnitude (low + 1)) (h : r = low ∧ s = low + 1 ∨ r = low + 1 ∧ s = low)
    (hnear : |x - magnitude r| ≤ |x - magnitude s|)
    (heven : |x - magnitude r| = |x - magnitude s| → r % 2 = 0) : IsNearest x r := by
  -- any rank but these two is further away than one of them
  have hfar : ∀ o, o ≠ r → o ≠ s → |x - magnitude r| < |x - magnitude o| := by
    intro o hr hs
    rcases lt_or_gt_of_ne (show o ≠ low by omega) with ho | ho
    · have hlt := abs_sub_lt_of_below hlow ho
      rcases h with ⟨rfl, rfl⟩ | ⟨rfl, rfl⟩
      · exact hlt
      · exact hnear.trans_lt hlt
    · have hlt := abs_sub_lt_of_above hhigh (s := o) (by omega)
      rcases h with ⟨rfl, rfl⟩ | ⟨rfl, rfl⟩
      · exact hnear.trans_lt hlt
      · exact hlt
  refine ⟨by omega, fun o _ => ?_, fun o _ hr he => ?_⟩
  · rcases eq_or_ne o r with rfl | hr
    · exact le_rfl
    · rcases eq_or_ne o s with rfl | hs
      · exact hnear
      · exact (hfar o hr hs).le
  · rcases eq_or_ne o s with rfl | hs
    · exact heven he.symm
    · exact absurd he (hfar o hr hs).ne'

theorem isNearest_zero : IsNearest 0 0 where
  le := by decide
  nearest other _ := by
    rw [magnitude_zero, sub_zero, abs_zero]
    exact abs_nonneg _
  even _ _ _ _ := rfl

theorem isNearest_of_large (h : 2 ^ (1024 : Int) ≤ x) : IsNearest x infinityRank where
  le := le_rfl
  nearest other ho := by
    rcases ho.lt_or_eq with ho | rfl
    · exact (abs_sub_lt_of_below (magnitude_infinityRank ▸ h) ho).le
    · exact le_rfl
  even _ _ _ _ := by decide

/-- Half to even on the whole numbers: the neighbour below or the one above, the nearer of them, and
of two equally near ones the even one. -/
theorem roundHalfEven_around {k : Nat} {y : Rat} (hlow : (k : Rat) ≤ y) (hhigh : y < k + 1) :
    (roundHalfEven y = k ∧ y - k ≤ k + 1 - y ∧ (y - k = k + 1 - y → k % 2 = 0)) ∨
      (roundHalfEven y = k + 1 ∧ k + 1 - y ≤ y - k ∧ (k + 1 - y = y - k → (k + 1) % 2 = 0)) := by
  have hfloor : y.floor = k := by
    refine le_antisymm (Int.lt_add_one_iff.mp (not_le.mp fun h => ?_)) (Rat.le_floor_iff.mpr ?_)
    · have hle := Rat.le_floor_iff.mp h
      push_cast at hle
      linarith
    · exact_mod_cast hlow
  simp only [roundHalfEven, hfloor, Int.cast_natCast]
  split
  case isTrue h => exact .inl ⟨rfl, by linarith, fun _ => by linarith⟩
  case isFalse h =>
    split
    case isTrue h' => exact .inr ⟨rfl, by linarith, fun _ => by linarith⟩
    case isFalse h' =>
      split
      case isTrue hk => exact .inl ⟨rfl, by linarith, fun _ => by omega⟩
      case isFalse hk => exact .inr ⟨rfl, by linarith, fun _ => by omega⟩

/-- A number below infinity lies between two ranks, as far from them as its units from two whole
numbers of the same parities, and it is the units that are rounded. -/
theorem exists_around (hpos : 0 < x) (hlarge : x < 2 ^ (1024 : Int)) : ∃ (low k : Nat) (y : Rat),
    low < infinityRank ∧ low % 2 = k % 2 ∧ (k : Rat) ≤ y ∧ y < k + 1 ∧
      x - magnitude low = (y - k) * 2 ^ gridExponent x ∧
      x - magnitude (low + 1) = (y - (k + 1)) * 2 ^ gridExponent x ∧
      (roundHalfEven y = k → nearestRank x = low) ∧
      (roundHalfEven y = k + 1 → nearestRank x = low + 1) := by
  obtain ⟨j, k, y, hgrid, hj, hy, hlow, hhigh, hk, hjk⟩ := exists_grid_of_lt hpos hlarge
  have hrank := grid_rank_lt hj hk
  have hnear := nearestRank_eq_min hpos hgrid hy
  have hx : x = y * 2 ^ gridExponent x := eq_mul_of_units hy
  refine ⟨j * binade + k, k, y, hrank, ?_, hlow, hhigh, ?_, ?_, fun h => ?_, fun h => ?_⟩
  · simp only [binade]
    omega
  · rw [magnitude_grid_le hk.le hjk, ← hgrid, sub_mul, ← hx]
  · rw [Nat.add_assoc, magnitude_grid_le hk (by omega), ← hgrid, sub_mul, ← hx, Nat.cast_succ]
  · rw [hnear, h, Int.toNat_natCast, Nat.min_eq_right hrank.le]
  · have hnat : ((k : Int) + 1).toNat = k + 1 := by omega
    rw [hnear, h, hnat, ← Nat.add_assoc, Nat.min_eq_right hrank]

/-- Rounding finds the nearest rank. -/
theorem isNearest_nearestRank (hx : 0 ≤ x) : IsNearest x (nearestRank x) := by
  rcases hx.lt_or_eq with hpos | rfl
  case inr => exact isNearest_zero
  rcases lt_or_ge x (2 ^ (1024 : Int)) with hlarge | hlarge
  case inr => exact nearestRank_of_large hlarge ▸ isNearest_of_large hlarge
  obtain ⟨low, k, y, hrank, hparity, hlow, hhigh, hdown, hup, hfirst, hsecond⟩ :=
    exists_around hpos hlarge
  have hunit := two_zpow_pos (gridExponent x)
  have hdown' : 0 ≤ (y - k) * 2 ^ gridExponent x := mul_nonneg (by linarith) hunit.le
  have hup' : (y - (k + 1)) * 2 ^ gridExponent x ≤ 0 :=
    mul_nonpos_of_nonpos_of_nonneg (by linarith) hunit.le
  have hlow' : magnitude low ≤ x := sub_nonneg.mp (hdown ▸ hdown')
  have hhigh' : x ≤ magnitude (low + 1) := sub_nonpos.mp (hup ▸ hup')
  have hfar : |x - magnitude low| = (y - k) * 2 ^ gridExponent x := by
    rw [hdown, abs_of_nonneg hdown']
  have hfar' : |x - magnitude (low + 1)| = (k + 1 - y) * 2 ^ gridExponent x := by
    rw [hup, abs_of_nonpos hup', ← neg_mul, neg_sub]
  rcases roundHalfEven_around hlow hhigh with ⟨hround, hn, he⟩ | ⟨hround, hn, he⟩
  · refine hfirst hround ▸ .of_around hrank hlow' hhigh' (.inl ⟨rfl, rfl⟩) ?_ fun h => ?_
    · rw [hfar, hfar']
      exact mul_le_mul_of_nonneg_right hn hunit.le
    · rw [hfar, hfar'] at h
      exact hparity.trans (he (mul_right_cancel₀ hunit.ne' h))
  · refine hsecond hround ▸ .of_around hrank hlow' hhigh' (.inr ⟨rfl, rfl⟩) ?_ fun h => ?_
    · rw [hfar, hfar']
      exact mul_le_mul_of_nonneg_right hn hunit.le
    · rw [hfar, hfar'] at h
      have hk := he (mul_right_cancel₀ hunit.ne' h)
      omega

theorem nearestRank_eq_iff (hx : 0 ≤ x) : nearestRank x = r ↔ IsNearest x r :=
  ⟨fun h => h ▸ isNearest_nearestRank hx, fun h => (isNearest_nearestRank hx).unique h⟩

end KineticAlphabet.Binary64
