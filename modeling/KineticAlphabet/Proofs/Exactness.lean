import KineticAlphabet.Proofs.Writing
/-!
Numbers that are read as they were written. A natural number of 64 bits is gathered digit by digit.
A count of half turns has few bits, so no other decimal with one digit behind the point is near
enough to round to it: the shortest decimal is the count itself, and reading it divides a whole
number by ten, which gives the count back.
-/
namespace KineticAlphabet

namespace Decimal

theorem ofDigitChars_numeral (n : Nat) : Nat.ofDigitChars 10 (numeral n) 0 = n :=
  Nat.ofDigitChars_ten_toDigits

end Decimal

namespace Json.Numeral

/-- Digits are gathered as long as what they are worth fits into 64 bits. -/
theorem gather_eq {ds : List Char} {n : Nat} (h : Nat.ofDigitChars 10 ds n < UInt64.size) :
    gather ds n = (Nat.ofDigitChars 10 ds n, 0) := by
  induction ds generalizing n with
  | nil => rfl
  | cons c cs ih =>
    have hnext : Decimal.worth [c] + 10 * n = 10 * n + (c.toNat - '0'.toNat) := by
      simp [Decimal.worth, Nat.add_comm]
    rw [Nat.ofDigitChars_cons] at h ⊢
    have hle : 10 * n + (c.toNat - '0'.toNat) < UInt64.size := by
      refine Nat.lt_of_le_of_lt ?_ h
      rw [Nat.ofDigitChars_eq_ofDigitChars_zero]
      exact Nat.le_add_right_of_le (Nat.le_mul_of_pos_left _ (by positivity))
    rw [gather]
    simp only [hnext, hle, if_true]
    exact ih h

/-- A natural number of 64 bits is read as it was written. -/
theorem value_ofInt {n : Nat} (h : n < UInt64.size) : (ofInt n).value = .int n := by
  have hdigits := Decimal.ofDigitChars_numeral n
  have hgather : gather (Decimal.numeral n) 0 = (n, 0) := by
    rw [gather_eq (by rwa [hdigits]), hdigits]
  have hsign : decide ((n : Int) < 0) = false := decide_eq_false (by omega)
  rw [ofInt, hsign, Int.natAbs_natCast, value]
  simp only [hgather]
  rfl

end Json.Numeral

namespace Binary64

variable {rank : Nat} {tie : Tie}

theorem roundsTo_self (h : 0 < rank) : roundsTo rank (magnitude rank) = true := by
  obtain ⟨r, rfl⟩ := Nat.exists_eq_succ_of_ne_zero (Nat.ne_of_gt h)
  have hbelow := magnitude_succ r
  have habove := magnitude_succ (r + 1)
  have hpos := two_zpow_pos (exponent r)
  have hpos' := two_zpow_pos (exponent (r + 1))
  have hlow : halfway r < magnitude (r + 1) := by
    rw [halfway]
    linarith
  have hhigh : magnitude (r + 1) < halfway (r + 1) := by
    rw [halfway]
    linarith
  simp only [roundsTo, Nat.succ_sub_one]
  split
  · exact decide_eq_true ⟨hlow.le, hhigh.le⟩
  · exact decide_eq_true ⟨hlow, hhigh⟩

/-- A magnitude on a grid is found there. -/
theorem nearestOnGrid_self {d : Decimal} (hrank : 0 < rank) (h : d.value = magnitude rank) :
    nearestOnGrid tie rank d.exponent = some d := by
  have hunit : (0 : Rat) < 10 ^ d.exponent := by positivity
  have hbelow : (magnitude rank / 10 ^ d.exponent).floor = d.digits := by
    rw [← h, Decimal.value, mul_div_assoc, div_self hunit.ne', mul_one]
    exact Rat.floor_intCast d.digits
  have hlow : ((d.digits : Int) : Rat) * 10 ^ d.exponent = magnitude rank := h
  have hhigh : (((d.digits : Int) : Rat) + 1) * 10 ^ d.exponent =
      magnitude rank + 10 ^ d.exponent := by
    rw [add_mul, hlow, one_mul]
  unfold nearestOnGrid
  simp only [hbelow, hlow, hhigh, roundsTo_self hrank, sub_self, add_sub_cancel_left, hunit,
    if_true, Int.toNat_natCast]
  cases roundsTo rank (magnitude rank + 10 ^ d.exponent) <;> rfl

/-- Only the magnitude itself has one digit behind the point and is near enough. -/
theorem value_eq_of_roundsTo {d : Decimal} {n : Nat} (hrank : 0 < rank)
    (hn : magnitude rank = n / 10) (hsmall : magnitude rank < 2 ^ (32 : Int))
    (hd : -1 ≤ d.exponent) (h : roundsTo rank d.value = true) : d.value = magnitude rank := by
  obtain ⟨e, he⟩ := Int.eq_ofNat_of_zero_le (a := d.exponent + 1) (by omega)
  have hvalue : d.value = (d.digits * 10 ^ e : Nat) / 10 := by
    have hexp : d.exponent = (e : Int) - 1 := by omega
    rw [Decimal.value, hexp, zpow_sub_one₀ (by norm_num)]
    push_cast
    rw [zpow_natCast]
    ring
  have hnear := abs_sub_le_of_roundsTo hrank h
  have hunit := two_zpow_exponent_lt (e := 32) (by decide) hsmall
  rw [hvalue, hn] at hnear ⊢
  -- both are tenths, and they are nearer to each other than a tenth
  have hdiff : |((d.digits * 10 ^ e : Nat) : Rat) - n| < 1 := by
    have htenfold : ((d.digits * 10 ^ e : Nat) : Rat) - n =
        ((d.digits * 10 ^ e : Nat) / 10 - n / 10) * 10 := by ring
    have hsmall' : (2 : Rat) ^ ((32 : Int) - 52) * 5 < 1 := by norm_num
    rw [htenfold, abs_mul, abs_of_pos (by norm_num : (0 : Rat) < 10)]
    linarith
  have heq : d.digits * 10 ^ e = n := by
    have hint : |((d.digits * 10 ^ e : Nat) : Int) - n| < 1 := by exact_mod_cast hdiff
    have := Int.abs_lt_one_iff.mp hint
    omega
  rw [heq]

theorem exists_findSome?_range {α : Type} {f : Nat → Option α} {s n : Nat} {a : α} (hs : s < n)
    (hf : f s = some a) : ∃ t ≤ s, ∃ b, f t = some b ∧ (List.range n).findSome? f = some b := by
  induction n with
  | zero => cases hs
  | succ n ih =>
    rw [List.range_succ, List.findSome?_append]
    rcases Nat.lt_succ_iff_lt_or_eq.mp hs with hlt | rfl
    · obtain ⟨t, ht, b, hb, hfind⟩ := ih hlt
      exact ⟨t, ht, b, hb, by rw [hfind]; rfl⟩
    · cases hfind : (List.range s).findSome? f with
      | none => exact ⟨s, le_rfl, a, hf, by simp [hf]⟩
      | some b =>
        obtain ⟨t, ht, hb⟩ := List.exists_of_findSome?_eq_some hfind
        exact ⟨t, (List.mem_range.mp ht).le, b, hb, rfl⟩

end Binary64

namespace Json.Numeral

/-- A number with one digit behind the point is a whole number divided by ten. -/
theorem value_tenths {whole tenths : List Char} {n : Nat}
    (hn : Nat.ofDigitChars 10 (whole ++ tenths) 0 = n) (hlength : tenths.length = 1) (hpos : 0 < n)
    (hlt : n < 2 ^ 53) : value ⟨false, whole, some tenths, none⟩ =
      .float (.ofMagnitude false (Binary64.magnitude (Binary64.nearestRank (n / 10 : Rat)))) := by
  have hsize : n < UInt64.size := hlt.trans (by decide)
  rw [Nat.ofDigitChars_append] at hn
  have hwhole : Nat.ofDigitChars 10 whole 0 ≤ n := by
    rw [← hn, Nat.ofDigitChars_eq_ofDigitChars_zero (l := tenths)]
    exact Nat.le_add_right_of_le (Nat.le_mul_of_pos_left _ (by positivity))
  have hgather : gather whole 0 = (Nat.ofDigitChars 10 whole 0, 0) :=
    gather_eq (hwhole.trans_lt hsize)
  have hgather' : gather tenths (Nat.ofDigitChars 10 whole 0) = (n, 0) := by
    rw [gather_eq (by rwa [hn]), hn]
  have hten : Binary64.magnitude (tenRank 1) = 10 := by
    have := (Binary64.magnitude_nearestRank_natCast (n := 10) (by decide)).1
    simpa [tenRank] using this
  have hquotient : divRank (Binary64.nearestRank n) (tenRank 1) =
      Binary64.nearestRank (n / 10 : Rat) := by
    rw [divRank, (Binary64.magnitude_nearestRank_natCast hlt).1, hten]
  unfold value
  simp only [hgather, Option.getD_some, hgather', hlength]
  have hplaces : ((0 : Nat) : Int) - ((1 - 0 : Nat) : Int) = -1 := rfl
  have hshrink : shrink 4 (Binary64.nearestRank n) (-1 : Int).natAbs =
      divRank (Binary64.nearestRank n) (tenRank 1) := by
    rw [shrink, if_pos (by decide)]
    rfl
  rw [hplaces, scaled, if_neg hpos.ne', if_pos (by decide), hshrink, hquotient]

/-- With at most one digit behind the point, the numeral has just one there. -/
theorem positional_tenths {d : Decimal} (hd : -1 ≤ d.exponent) : ∃ whole tenths,
    positional false d = ⟨false, whole, some tenths, none⟩ ∧ tenths.length = 1 ∧
      (Nat.ofDigitChars 10 (whole ++ tenths) 0 : Rat) = d.value * 10 := by
  have hdigits := Decimal.ofDigitChars_numeral d.digits
  unfold positional
  by_cases hexp : 0 ≤ d.exponent
  · obtain ⟨e, he⟩ := Int.eq_ofNat_of_zero_le hexp
    refine ⟨_, _, if_pos hexp, rfl, ?_⟩
    rw [Nat.ofDigitChars_append, Nat.ofDigitChars_append, hdigits, Nat.ofDigitChars_replicate_zero,
      Decimal.value, he, Int.toNat_natCast, zpow_natCast]
    simp [Nat.ofDigitChars_cons]
    ring
  · have hexp' : d.exponent = -1 := by omega
    have hvalue : (d.digits : Rat) = d.value * 10 := by
      rw [Decimal.value, hexp', zpow_neg_one, mul_assoc, inv_mul_cancel₀ (by norm_num), mul_one]
    have hpoint : d.pointPlace = (Decimal.numeral d.digits).length - 1 := by
      rw [Decimal.pointPlace, hexp']
      rfl
    by_cases hplace : 0 < d.pointPlace
    · refine ⟨_, _, (if_neg hexp).trans (if_pos hplace), ?_, ?_⟩
      · rw [List.length_drop]
        omega
      · rw [List.take_append_drop, hdigits, hvalue]
    · have hlength : (Decimal.numeral d.digits).length = 1 := by
        have := List.length_pos_of_ne_nil (Decimal.digits_numeral d.digits).1
        omega
      have hnone : (-d.pointPlace).toNat = 0 := by omega
      refine ⟨_, _, (if_neg hexp).trans (if_neg hplace), ?_, ?_⟩
      · rw [hnone]
        exact hlength
      · rw [hnone, ← hvalue]
        exact congrArg (Nat.cast (R := Rat)) hdigits

end Json.Numeral

namespace Decimal

/-- A decimal below a power of ten has no more digits in front of the point. -/
theorem pointPlace_le {d : Decimal} {k : Nat} (h : d.value < 10 ^ k) (hpos : 0 < d.digits) :
    d.pointPlace ≤ k := by
  obtain ⟨l, hl⟩ := Nat.exists_eq_succ_of_ne_zero
    (Nat.ne_of_gt (List.length_pos_of_ne_nil (digits_numeral d.digits).1))
  have hdigits : 10 ^ l ≤ d.digits := by
    rcases Nat.eq_zero_or_pos l with rfl | hlpos
    · exact hpos
    · by_contra hlt
      have := (Nat.length_toDigits_le_iff (by decide) hlpos).mpr (not_le.mp hlt)
      rw [← numeral, hl] at this
      omega
  have hvalue : (10 : Rat) ^ ((l : Int) + d.exponent) < 10 ^ (k : Int) := by
    rw [zpow_add₀ (by norm_num), zpow_natCast, zpow_natCast]
    refine lt_of_le_of_lt (mul_le_mul_of_nonneg_right ?_ (by positivity)) h
    exact_mod_cast hdigits
  have hlt := (zpow_lt_zpow_iff_right₀ (by norm_num : (1 : Rat) < 10)).mp hvalue
  rw [pointPlace, hl]
  omega

theorem length_numeral_le {n k : Nat} (hk : 0 < k) (h : n < 10 ^ k) : (numeral n).length ≤ k :=
  (Nat.length_toDigits_le_iff (by decide) hk).mpr h

end Decimal

namespace Binary64

variable {n : Nat}

theorem nearestRank_half_pos (hpos : 0 < n) (hlt : n < 2 ^ 32) :
    0 < nearestRank ((n : Rat) / 2) := by
  by_contra hzero
  have hmag := (magnitude_nearestRank_half hlt).1
  rw [Nat.eq_zero_of_not_pos hzero, magnitude_zero] at hmag
  have : (0 : Rat) < n := by exact_mod_cast hpos
  linarith

/-- The search for the shortest decimal of a count of half turns reaches the tenths. -/
theorem top_half (hlt : n < 2 ^ 32) {x : Rat} {top : Int} (hn : x = (n : Rat) / 2)
    (htop : top = ((Decimal.numeral x.num.natAbs).length : Int) -
      (Decimal.numeral x.den).length + 1) : -1 ≤ top ∧ top < 19 := by
  have hx : x = Rat.divInt n 2 := by
    rw [Rat.divInt_eq_div]
    exact hn
  have hden : (Decimal.numeral x.den).length ≤ 1 := by
    refine Decimal.length_numeral_le Nat.one_pos ?_
    have hdvd : (x.den : Int) ∣ 2 := hx ▸ Rat.den_dvd n 2
    have := Int.le_of_dvd (by decide) hdvd
    omega
  have hnum : (Decimal.numeral x.num.natAbs).length ≤ 10 := by
    refine Decimal.length_numeral_le (by decide) ?_
    have hdvd : x.num.natAbs ∣ n := Int.natAbs_dvd_natAbs.mpr (hx ▸ Rat.num_dvd n (by decide))
    rcases Nat.eq_zero_or_pos n with rfl | hpos
    · simp [hn]
    · have := Nat.le_of_dvd hpos hdvd
      omega
  have := List.length_pos_of_ne_nil (Decimal.digits_numeral x.den).1
  omega

/-- The shortest decimal of a count of half turns is the count. -/
theorem shortest_half (hpos : 0 < n) (hlt : n < 2 ^ 32) (tie : Tie) :
    (shortest tie (nearestRank ((n : Rat) / 2))).value = (n : Rat) / 2 ∧
      -1 ≤ (shortest tie (nearestRank ((n : Rat) / 2))).exponent := by
  obtain ⟨hmag, -⟩ := magnitude_nearestRank_half hlt
  have hrank := nearestRank_half_pos hpos hlt
  generalize nearestRank ((n : Rat) / 2) = rank at hmag hrank
  obtain ⟨top, htop⟩ : ∃ top, top = ((Decimal.numeral (magnitude rank).num.natAbs).length : Int) -
      (Decimal.numeral (magnitude rank).den).length + 1 := ⟨_, rfl⟩
  obtain ⟨hlow, hhigh⟩ := top_half hlt hmag htop
  have hvalue : Decimal.value ⟨5 * n, -1⟩ = magnitude rank := by
    rw [hmag, Decimal.value, zpow_neg_one]
    push_cast
    ring
  have hself : nearestOnGrid tie rank (-1) = some ⟨5 * n, -1⟩ :=
    nearestOnGrid_self (d := ⟨5 * n, -1⟩) hrank hvalue
  have hstep : top - ((top + 1).toNat : Int) = -1 := by omega
  obtain ⟨t, ht, d, hd, hfind⟩ := exists_findSome?_range
    (f := fun step : Nat => nearestOnGrid tie rank (top - step))
    (s := (top + 1).toNat) (n := 20) (by omega) (by rw [hstep]; exact hself)
  obtain ⟨hexp, hrounds⟩ := nearestOnGrid_spec hd
  have hexp' : -1 ≤ d.exponent := by omega
  have hshortest : shortest tie rank = d := by
    rw [shortest, ← htop, hfind, Option.getD_some]
  rw [hshortest]
  refine ⟨?_, hexp'⟩
  rw [← hmag]
  refine value_eq_of_roundsTo (n := 5 * n) hrank ?_ (hmag ▸ half_lt hlt) hexp' hrounds
  rw [hmag]
  push_cast
  ring

end Binary64

namespace Json

/-- A value whose text is a well-formed number is read as what that number stands for. -/
theorem reread_of_text {v : Json} {n : Numeral} {d : Doc} (hn : n.WellFormed)
    (htext : v.compact.toList = n.text) (hd : Doc.ofToken? (.number n.value) = some d) :
    v.reread = d :=
  Reads.reread_eq (htext ▸ ⟨[.number n.value], yields_number hn, builds_token hd⟩)

/-- A natural number of 64 bits is read as it was written. -/
theorem reread_nat {n : Nat} (h : n < UInt64.size) : (nat n).reread = .int n :=
  reread_of_text (Numeral.wellFormed_ofInt n) (Numeral.text_ofInt n)
    (by rw [Numeral.value_ofInt h]; rfl)

theorem reread_zero : (float (.zero false)).reread = .float (.zero false) := by
  have hzero : Numeral.WellFormed ⟨false, ['0'], some ['0'], none⟩ := by
    refine ⟨Numeral.digits_zero, fun _ => rfl, ?_, nofun⟩
    rintro _ ⟨⟩
    exact Numeral.digits_zero
  exact reread_of_text hzero rfl rfl

/-- A count of half turns is read as it was written. -/
theorem reread_half {n : Nat} (h : n < 2 ^ 32) :
    (float (.ofRat ((n : Rat) / 2))).reread = .float (.ofRat ((n : Rat) / 2)) := by
  rcases Nat.eq_zero_or_pos n with rfl | hpos
  · have hzero : Binary64.ofRat (((0 : Nat) : Rat) / 2) = .zero false := by
      rw [Nat.cast_zero, zero_div, Binary64.ofRat_of_nonneg le_rfl]
      rfl
    rw [hzero]
    exact reread_zero
  obtain ⟨hmag, hinf⟩ := Binary64.magnitude_nearestRank_half h
  have hrank := Binary64.nearestRank_half_pos hpos h
  obtain ⟨hvalue, hexp⟩ := Binary64.shortest_half hpos h .even
  have hround : Binary64.ofRat ((n : Rat) / 2) = .ofMagnitude false ((n : Rat) / 2) :=
    Binary64.ofRat_of_nonneg (by positivity)
  generalize hd : Binary64.shortest .even (Binary64.nearestRank ((n : Rat) / 2)) = d at hvalue hexp
  have hdigits : 0 < d.digits := by
    by_contra hzero
    have hn : (0 : Rat) < n := by exact_mod_cast hpos
    rw [Decimal.value, Nat.eq_zero_of_not_pos hzero, Nat.cast_zero, zero_mul] at hvalue
    linarith
  -- at most ten digits stand in front of the point, so no power of ten is written
  have hplace : -5 < d.pointPlace ∧ d.pointPlace ≤ 16 := by
    have hlength := List.length_pos_of_ne_nil (Decimal.digits_numeral d.digits).1
    have hbelow : d.value < 10 ^ 10 := by
      rw [hvalue]
      exact (Binary64.half_lt h).trans (by norm_num)
    have hle := Decimal.pointPlace_le hbelow hdigits
    have hplace : d.pointPlace = (Decimal.numeral d.digits).length + d.exponent := rfl
    omega
  obtain ⟨whole, tenths, hnumeral, hlength, hworth⟩ := Numeral.positional_tenths hexp
  refine reread_of_text (n := .positional false d)
    (Numeral.wellFormed_positional false fun hzero => absurd hzero hdigits.ne') ?_ ?_
  · rw [Numeral.text_positional, compact, hround, Binary64.ofMagnitude, floatText,
      if_neg (Nat.ne_of_lt hinf), if_neg (Nat.ne_of_gt hrank), hd, if_pos hplace]
    rfl
  · have hfive : Nat.ofDigitChars 10 (whole ++ tenths) 0 = 5 * n := by
      have : (Nat.ofDigitChars 10 (whole ++ tenths) 0 : Rat) = (5 * n : Nat) := by
        rw [hworth, hvalue]
        push_cast
        ring
      exact_mod_cast this
    have htenth : ((5 * n : Nat) : Rat) / 10 = (n : Rat) / 2 := by
      push_cast
      ring
    rw [hnumeral, Numeral.value_tenths hfive hlength (by omega) (by omega), htenth, hmag, hround]
    rfl

end Json

end KineticAlphabet
