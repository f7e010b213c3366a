import KineticAlphabet.Proofs.Doubling
/-!
Comparing doubles and cutting them off. The magnitudes grow with their ranks, so doubles compare as
the numbers do that they are. The whole numbers next to a double are doubles too: one that is not
whole has bits behind the point, and so less than 53 in front of it. What is left of a whole part
has no more bits than the double. So floor, whole part and the rest of it are exact, and the
conversion to whole numbers only ever cuts off.
-/
namespace KineticAlphabet.Binary64

variable {x y : Binary64} {a b : Rat}

section Order

/-- The number at a place. -/
def valueAt : Int → Rat
  | .ofNat rank => magnitude rank
  | .negSucc rank => -magnitude (rank + 1)

theorem valueAt_lt_succ (i : Int) : valueAt i < valueAt (i + 1) := by
  cases i with
  | ofNat rank => exact magnitude_strictMono (Nat.lt_succ_self rank)
  | negSucc rank =>
    cases rank with
    | zero =>
      have hpos := magnitude_strictMono Nat.zero_lt_one
      rw [magnitude_zero] at hpos
      simpa [valueAt, magnitude_zero] using hpos
    | succ rank => exact neg_lt_neg (magnitude_strictMono (Nat.lt_succ_self (rank + 1)))

theorem valueAt_lt_iff {i j : Int} : valueAt i < valueAt j ↔ i < j :=
  (strictMono_int_of_lt_succ valueAt_lt_succ).lt_iff_lt

theorem valueAt_eq_iff {i j : Int} : valueAt i = valueAt j ↔ i = j :=
  (strictMono_int_of_lt_succ valueAt_lt_succ).injective.eq_iff

/-- A finite double is the number at its place. -/
theorem exists_place (h : x.toRat? = some a) : ∃ i, x.place? = some i ∧ valueAt i = a := by
  cases x with
  | nan => cases h
  | ranked negative rank =>
    simp only [toRat?] at h
    split at h
    case isTrue => cases h
    case isFalse =>
      rw [← Option.some.inj h]
      cases negative with
      | false => exact ⟨_, rfl, rfl⟩
      | true =>
        refine ⟨_, rfl, ?_⟩
        cases hrank : rank.val with
        | zero => simp [valueAt, magnitude_zero]
        | succ r => rfl

theorem lt_eq {i j : Int} (hx : x.place? = some i) (hy : y.place? = some j) :
    x.lt y = decide (i < j) := by
  simp only [lt, hx, hy]

/-- Finite doubles compare as numbers. -/
theorem lt_eq_decide (hx : x.toRat? = some a) (hy : y.toRat? = some b) :
    x.lt y = decide (a < b) := by
  obtain ⟨i, hi, rfl⟩ := exists_place hx
  obtain ⟨j, hj, rfl⟩ := exists_place hy
  rw [lt_eq hi hj, decide_eq_decide]
  exact valueAt_lt_iff.symm

theorem equal_eq_decide (hx : x.toRat? = some a) (hy : y.toRat? = some b) :
    x.equal y = decide (a = b) := by
  obtain ⟨i, hi, rfl⟩ := exists_place hx
  obtain ⟨j, hj, rfl⟩ := exists_place hy
  simp only [equal, hi, hj, decide_eq_decide]
  exact valueAt_eq_iff.symm

theorem toRat?_smaller (hx : x.toRat? = some a) (hy : y.toRat? = some b) :
    (x.smaller y).toRat? = some (min a b) := by
  have hlt := lt_eq_decide hy hx
  cases x with
  | nan => cases hx
  | ranked nx rx =>
    cases y with
    | nan => cases hy
    | ranked ny ry =>
      simp only [smaller, hlt, decide_eq_true_eq]
      split
      case isTrue h => rw [hy, min_eq_right h.le]
      case isFalse h => rw [hx, min_eq_left (not_lt.mp h)]

end Order

theorem toRat?_zero (negative : Bool) : (zero negative).toRat? = some 0 := by
  cases negative <;> simp [zero, toRat?, infinityRank, binade, magnitude_zero]

/-- What is no finite double is `nan` or infinite. -/
theorem eq_of_toRat?_eq_none (h : x.toRat? = none) :
    x = nan ∨ ∃ negative, x = infinity negative := by
  cases x with
  | nan => exact .inl rfl
  | ranked negative rank =>
    simp only [toRat?] at h
    split at h
    case isTrue hrank => exact .inr ⟨negative, congrArg _ (Fin.ext hrank)⟩
    case isFalse => cases h

/-- A number from zero on is its magnitude; only zero may have the other sign. -/
theorem exists_rank (h : x.toRat? = some a) (ha : 0 ≤ a) : ∃ negative rank,
    x = ranked negative rank ∧ rank.val < infinityRank ∧ magnitude rank = a ∧
      (negative = true → a = 0) := by
  cases x with
  | nan => cases h
  | ranked negative rank =>
    simp only [toRat?] at h
    split at h
    case isTrue => cases h
    case isFalse hrank =>
      have hlt : rank.val < infinityRank := by omega
      have hvalue := Option.some.inj h
      cases negative with
      | false => exact ⟨_, _, rfl, hlt, hvalue, fun h => by cases h⟩
      | true =>
        have hnonneg := magnitude_nonneg rank
        rw [if_pos rfl] at hvalue
        exact ⟨_, _, rfl, hlt, by linarith, fun _ => by linarith⟩

/-- A magnitude is a whole number with a rest behind the point. If there is one, less than 53 bits
stand in front of it. -/
theorem exists_parts (rank : Nat) : ∃ whole rest : Nat,
    magnitude rank - whole = rest * 2 ^ exponent rank ∧ (magnitude rank).floor = whole ∧
      rest < 2 ^ 53 ∧ ((whole : Rat) = magnitude rank ∨ whole < 2 ^ 53) := by
  have hmantissa := mantissa_lt rank
  rcases le_or_gt 0 (exponent rank) with he | he
  · obtain ⟨e, he⟩ := Int.eq_ofNat_of_zero_le he
    have hwhole : magnitude rank = (mantissa rank * 2 ^ e : Nat) := by
      rw [magnitude, he]
      push_cast
      rfl
    refine ⟨mantissa rank * 2 ^ e, 0, ?_, ?_, by decide, .inl hwhole.symm⟩
    · rw [hwhole, sub_self, Nat.cast_zero, zero_mul]
    · rw [hwhole]
      exact ratFloor_natCast _
  · obtain ⟨k, hk⟩ := Int.eq_ofNat_of_zero_le (neg_pos.mpr he).le
    have hquotient : magnitude rank = mantissa rank / (2 ^ k : Nat) := by
      rw [magnitude, ← neg_neg (exponent rank), hk, zpow_neg, div_eq_mul_inv]
      push_cast
      rfl
    have hparts : (mantissa rank : Rat) =
        (mantissa rank / 2 ^ k : Nat) * (2 ^ k : Nat) + (mantissa rank % 2 ^ k : Nat) := by
      exact_mod_cast (Nat.div_add_mod' (mantissa rank) (2 ^ k)).symm
    have hpos : (0 : Rat) < (2 ^ k : Nat) := by positivity
    refine ⟨mantissa rank / 2 ^ k, mantissa rank % 2 ^ k, ?_, ?_, ?_, .inr ?_⟩
    · rw [hquotient, hparts, ← neg_neg (exponent rank), hk, zpow_neg, zpow_natCast]
      push_cast
      field_simp
      ring
    · rw [hquotient]
      exact (Rat.floor_natCast_div_natCast _ _).trans (Int.natCast_div _ _).symm
    · exact (Nat.mod_le _ _).trans_lt hmantissa
    · exact (Nat.div_le_self _ _).trans_lt hmantissa

/-- The whole part of a magnitude is a double. -/
theorem magnitude_nearestRank_floor {rank : Nat} (hrank : rank < infinityRank) :
    magnitude (nearestRank (magnitude rank).floor) = (magnitude rank).floor ∧
      nearestRank (magnitude rank).floor < infinityRank := by
  obtain ⟨whole, rest, -, hfloor, -, hsame | hsmall⟩ := exists_parts rank
  · rw [hfloor, Int.cast_natCast, hsame]
    exact magnitude_nearestRank rfl (mantissa_lt rank) (le_exponent rank) (magnitude_lt hrank)
  · rw [hfloor, Int.cast_natCast]
    exact magnitude_nearestRank_natCast hsmall

/-- What is left of the whole part is a double. -/
theorem toRat?_ofRat_fract {rank : Nat} (hrank : rank < infinityRank) :
    (ofRat (magnitude rank - (magnitude rank).floor)).toRat? =
      some (magnitude rank - (magnitude rank).floor) := by
  obtain ⟨whole, rest, hrest, hfloor, hsmall, -⟩ := exists_parts rank
  have hlarge : magnitude rank - whole < 2 ^ (1024 : Int) :=
    (sub_le_self _ (Nat.cast_nonneg whole)).trans_lt (magnitude_lt hrank)
  rw [hfloor, Int.cast_natCast]
  exact toRat?_ofRat hrest hsmall (le_exponent rank) hlarge

/-- A difference that is a double is not rounded. -/
theorem toRat?_sub (hx : x.toRat? = some a) (hy : y.toRat? = some b)
    (h : (ofRat (a - b)).toRat? = some (a - b)) : (x.sub y).toRat? = some (a - b) := by
  cases x with
  | nan => cases hx
  | ranked nx rx =>
    cases y with
    | nan => cases hy
    | ranked ny ry =>
      simp only [sub, hx, hy]
      split
      case isTrue heq => rw [heq, sub_self, toRat?_zero]
      case isFalse => exact h

theorem ratFloor_zero : Rat.floor 0 = 0 := rfl

section Cut

variable (hx : x.toRat? = some a) (ha : 0 ≤ a)
include hx ha

/-- The whole part is exact. -/
theorem toRat?_trunc : x.trunc.toRat? = some (a.floor : Rat) := by
  obtain ⟨negative, rank, rfl, hrank, rfl, hsign⟩ := exists_rank hx ha
  rw [trunc, if_neg hrank.ne, toRat?_ofMagnitude (magnitude_nearestRank_floor hrank)]
  cases negative with
  | false => rfl
  | true => simp [hsign rfl, ratFloor_zero]

theorem toRat?_floor : x.floor.toRat? = some (a.floor : Rat) := by
  obtain ⟨negative, rank, rfl, hrank, rfl, hsign⟩ := exists_rank hx ha
  cases negative with
  | false =>
    rw [floor, if_neg hrank.ne, if_neg (by decide)]
    exact toRat?_ofMagnitude (magnitude_nearestRank_floor hrank) false
  | true =>
    rw [floor, if_neg hrank.ne, hsign rfl]
    decide +kernel

theorem toRat?_fract : x.fract.toRat? = some (a - a.floor) := by
  have htrunc := toRat?_trunc hx ha
  obtain ⟨-, rank, -, hrank, rfl, -⟩ := exists_rank hx ha
  exact toRat?_sub hx htrunc (toRat?_ofRat_fract hrank)

theorem saturate_eq (limit : Nat) : x.saturate limit = min limit a.floor.toNat := by
  obtain ⟨negative, rank, rfl, hrank, rfl, hsign⟩ := exists_rank hx ha
  cases negative with
  | false => rfl
  | true => simp [saturate, hsign rfl, ratFloor_zero]

theorem saturate_floor (limit : Nat) : x.floor.saturate limit = min limit a.floor.toNat := by
  have hnonneg : (0 : Rat) ≤ a.floor := by exact_mod_cast Rat.le_floor_iff.mpr ha
  rw [saturate_eq (toRat?_floor hx ha) hnonneg, Rat.floor_intCast]

/-- Twice a number that is too large is infinite. -/
theorem doubled_eq_infinity (h : 2 ^ (1024 : Int) ≤ 2 * a) : x.doubled = infinity false := by
  obtain ⟨negative, rank, rfl, hrank, rfl, hsign⟩ := exists_rank hx ha
  have hpos := (two_zpow_pos 1024).trans_le h
  cases negative with
  | false => simp [doubled, ofMagnitude, infinity, nearestRank_of_large h]
  | true => simp [hsign rfl] at hpos

end Cut

theorem saturate_floor_infinity {limit : Nat} (h : (limit : Rat) ≤ 2 ^ (1024 : Int)) :
    (infinity false).floor.saturate limit = limit := by
  have hfloor : (limit : Int) ≤ (magnitude infinityRank).floor := by
    rw [magnitude_infinityRank]
    exact Rat.le_floor_iff.mpr (by rwa [Int.cast_natCast])
  have hinfinity : (infinity false).floor = infinity false := rfl
  rw [hinfinity, infinity, saturate]
  dsimp only
  omega

theorem fract_of_infinite (h : x.toRat? = none) : x.fract = nan := by
  rcases eq_of_toRat?_eq_none h with rfl | ⟨negative, rfl⟩
  · rfl
  · cases negative <;> rfl

end KineticAlphabet.Binary64
