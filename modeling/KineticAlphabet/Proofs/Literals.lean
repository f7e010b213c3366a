import KineticAlphabet.Proofs.Exactness
import KineticAlphabet.Proofs.Nearness
import KineticAlphabet.Proofs.Trimming
/-!
Numerals that are read as doubles, by their grammar: a sign if there is one, then `inf`, `infinity`
or `nan` in any case, or digits around a point and a power of ten. A decimal number is read as the
nearest double, also where its powers are too large or too small to be taken.
-/
namespace KineticAlphabet

namespace Decimal

variable {cs sign body ds : List Char} {negative : Bool} {e : Int} {d : Decimal}

/-- A sign, if there is one, and whether it is a minus. -/
inductive Sign : List Char → Bool → Prop
  | absent : Sign [] false
  | plus : Sign ['+'] false
  | minus : Sign ['-'] true

/-- Digits before and behind a point, which may be missing where none stand behind it. -/
inductive Mantissa : List Char → List Char → List Char → Prop
  | whole {ds : List Char} (h : Digits ds) : Mantissa ds ds []
  | pointed {ds es : List Char} (hds : ∀ c ∈ ds, c.isDigit = true)
      (hes : ∀ c ∈ es, c.isDigit = true) (h : ds ++ es ≠ []) : Mantissa (ds ++ '.' :: es) ds es

/-- A power of ten, if there is one: `e`, a sign if there is one, and digits. -/
inductive Power : List Char → Int → Prop
  | absent : Power [] 0
  | given {c : Char} {sign ds : List Char} {negative : Bool} (hc : c = 'e' ∨ c = 'E')
      (hsign : Sign sign negative) (hds : Digits ds) :
      Power (c :: (sign ++ ds)) (if negative then -(worth ds : Int) else worth ds)

def Unsigned (body : List Char) : Prop := ∀ c, body.head? = some c → c ≠ '-' ∧ c ≠ '+'

theorem worth_numeral (n : Nat) : worth (numeral n) = n := ofDigitChars_numeral n

theorem worth_append_singleton (cs : List Char) (c : Char) :
    worth (cs ++ [c]) = 10 * worth cs + (c.toNat - '0'.toNat) := by
  rw [worth, List.foldl_append]
  rfl

theorem exists_sign (cs : List Char) :
    ∃ sign, Sign sign (spanSign cs).1 ∧ cs = sign ++ (spanSign cs).2 := by
  unfold spanSign
  split
  · exact ⟨['-'], .minus, rfl⟩
  · exact ⟨['+'], .plus, rfl⟩
  · exact ⟨[], .absent, rfl⟩

theorem spanSign_append (hsign : Sign sign negative) (hbody : Unsigned body) :
    spanSign (sign ++ body) = (negative, body) := by
  cases hsign with
  | absent =>
    cases body with
    | nil => rfl
    | cons c body =>
      obtain ⟨hminus, hplus⟩ := hbody c rfl
      rw [List.nil_append, spanSign]
      · exact fun _ h => hminus (List.cons.inj h).1
      · exact fun _ h => hplus (List.cons.inj h).1
  | plus => rfl
  | minus => rfl

theorem unsigned_of_digit {c : Char} (h : c.isDigit = true) : c ≠ '-' ∧ c ≠ '+' := by
  constructor <;> rintro rfl <;> cases h

theorem Digits.unsigned (h : Digits ds) : Unsigned ds := fun _ hc =>
  unsigned_of_digit (h.2 _ (List.mem_of_head? hc))

theorem isDigits_iff : (ds.isEmpty || !ds.all Char.isDigit) = false ↔ Digits ds := by
  rw [Bool.or_eq_false_iff, Bool.not_eq_false', List.all_eq_true, Digits,
    ← List.isEmpty_eq_false_iff]

theorem power?_eq_some_iff : power? cs = some e ↔ Power cs e := by
  constructor
  · intro h
    cases cs with
    | nil =>
      cases h
      exact .absent
    | cons c cs =>
      rw [power?] at h
      split at h
      case isFalse => cases h
      case isTrue hc =>
        obtain ⟨sign, hsign, hcs⟩ := exists_sign cs
        generalize spanSign cs = parts at h hsign hcs
        subst hcs
        dsimp only at h
        split at h
        case isTrue => cases h
        case isFalse hds =>
          cases h
          have hc : c = 'e' ∨ c = 'E' := by simpa using hc
          exact .given hc hsign (isDigits_iff.mp (Bool.eq_false_iff.mpr hds))
  · intro h
    cases h with
    | absent => rfl
    | given hc hsign hds =>
      rw [power?, if_pos (by simpa using hc), spanSign_append hsign hds.unsigned]
      dsimp only
      rw [isDigits_iff.mpr hds]
      rfl

theorem Power.head (h : Power cs e) {c : Char} (hc : cs.head? = some c) :
    c.isDigit = false ∧ c ≠ '.' := by
  cases h with
  | absent => cases hc
  | given he _ _ =>
    cases hc
    rcases he with rfl | rfl <;> decide

theorem Mantissa.head {mantissa whole fraction : List Char}
    (h : Mantissa mantissa whole fraction) (power : List Char) :
    ∃ c, (mantissa ++ power).head? = some c ∧ (c.isDigit = true ∨ c = '.') := by
  cases h with
  | whole hds =>
    obtain ⟨c, ds, rfl⟩ := List.exists_cons_of_ne_nil hds.1
    exact ⟨c, rfl, .inl (hds.2 c List.mem_cons_self)⟩
  | pointed hds _ _ =>
    cases hw : whole with
    | nil => exact ⟨'.', rfl, .inr rfl⟩
    | cons c ds => exact ⟨c, rfl, .inl (hds c (hw ▸ List.mem_cons_self))⟩

theorem Mantissa.unsigned {mantissa whole fraction : List Char}
    (h : Mantissa mantissa whole fraction) (power : List Char) :
    Unsigned (mantissa ++ power) := by
  intro c hc
  obtain ⟨d, hd, hcase⟩ := h.head power
  cases hc.symm.trans hd
  rcases hcase with hdigit | rfl
  · exact unsigned_of_digit hdigit
  · decide

theorem unsigned?_whole {rest : List Char} (hspan : spanDigits cs = (ds, rest))
    (hpoint : ∀ tail, rest ≠ '.' :: tail) : unsigned? cs =
      if ds.isEmpty then none else (power? rest).map fun e => ⟨worth ds, e⟩ := by
  simp only [unsigned?, hspan, List.isEmpty_nil, Bool.and_true, List.append_nil,
    List.length_nil, Nat.cast_zero, sub_zero]

theorem unsigned?_pointed {es rest tail : List Char} (hspan : spanDigits cs = (ds, '.' :: tail))
    (htail : spanDigits tail = (es, rest)) : unsigned? cs =
      if ds.isEmpty && es.isEmpty then none
      else (power? rest).map fun e => ⟨worth (ds ++ es), e - es.length⟩ := by
  simp only [unsigned?, hspan, htail]

theorem spanDigits_spec (cs : List Char) : ∃ ds rest, spanDigits cs = (ds, rest) ∧
    cs = ds ++ rest ∧ ∀ c ∈ ds, c.isDigit = true :=
  ⟨_, _, rfl, List.takeWhile_append_dropWhile.symm, List.all_eq_true.mp List.all_takeWhile⟩

/-- Numerals without a sign are digits around a point and a power of ten. -/
theorem unsigned?_eq_some_iff : unsigned? cs = some d ↔
    ∃ mantissa whole fraction power e, cs = mantissa ++ power ∧ Mantissa mantissa whole fraction ∧
      Power power e ∧ d = ⟨worth (whole ++ fraction), e - fraction.length⟩ := by
  constructor
  · intro h
    obtain ⟨ds, rest, hspan, rfl, hds⟩ := spanDigits_spec cs
    by_cases hpoint : ∃ tail, rest = '.' :: tail
    · obtain ⟨tail, rfl⟩ := hpoint
      obtain ⟨es, rest, htail, rfl, hes⟩ := spanDigits_spec tail
      rw [unsigned?_pointed hspan htail] at h
      split at h
      case isTrue => cases h
      case isFalse hne =>
        obtain ⟨e, he, rfl⟩ := Option.map_eq_some_iff.mp h
        refine ⟨ds ++ '.' :: es, ds, es, rest, e, by simp, .pointed hds hes ?_,
          power?_eq_some_iff.mp he, rfl⟩
        simpa using hne
    · rw [unsigned?_whole hspan fun tail he => hpoint ⟨tail, he⟩] at h
      split at h
      case isTrue => cases h
      case isFalse hne =>
        obtain ⟨e, he, rfl⟩ := Option.map_eq_some_iff.mp h
        refine ⟨ds, ds, [], rest, e, rfl, .whole ⟨?_, hds⟩, power?_eq_some_iff.mp he, by simp⟩
        simpa using hne
  · rintro ⟨mantissa, whole, fraction, power, e, rfl, hmantissa, hpower, rfl⟩
    have hrest := power?_eq_some_iff.mpr hpower
    cases hmantissa with
    | whole hds =>
      have hspan := spanDigits_append hds.2 fun c hc => (hpower.head hc).1
      have hpoint : ∀ tail, power ≠ '.' :: tail := by
        rintro tail rfl
        exact (hpower.head rfl).2 rfl
      rw [unsigned?_whole hspan hpoint, hrest]
      simp [hds.1]
    | pointed hds hes h =>
      have hspan : spanDigits (whole ++ '.' :: (fraction ++ power)) = _ :=
        spanDigits_append hds fun c hc => by cases hc; rfl
      have htail := spanDigits_append hes fun c hc => (hpower.head hc).1
      rw [List.append_assoc, List.cons_append, unsigned?_pointed hspan htail, hrest]
      simpa using h

/-- A decimal is below the power of ten of the place of its point. -/
theorem value_lt (d : Decimal) : d.value < 10 ^ d.pointPlace := by
  have hlength := List.length_pos_of_ne_nil (digits_numeral d.digits).1
  have hdigits : d.digits < 10 ^ (numeral d.digits).length :=
    (Nat.length_toDigits_le_iff (by decide) hlength).mp le_rfl
  rw [value, pointPlace, zpow_add₀ (by norm_num), zpow_natCast]
  refine mul_lt_mul_of_pos_right ?_ (by positivity)
  exact_mod_cast hdigits

end Decimal

namespace Binary64

open Decimal (Digits Sign Mantissa Power)
open Text (small)

variable {cs body : List Char} {x : Binary64} {negative : Bool}

/-- Ninety-three powers of two are less than twenty-eight of ten. -/
theorem two_zpow_le_ten_zpow {a b : Nat} (h : (2 : Rat) ^ a ≤ 10 ^ b) :
    (2 : Rat) ^ ((93 * 11 + a : Nat) : Int) ≤ 10 ^ ((28 * 11 + b : Nat) : Int) := by
  rw [zpow_natCast, zpow_natCast, pow_add, pow_add, pow_mul, pow_mul]
  exact mul_le_mul (pow_le_pow_left₀ (by norm_num) (by norm_num) 11) h (by positivity)
    (by positivity)

/-- What is at most half of the least positive magnitude rounds to zero. -/
theorem nearestRank_of_small {v : Rat} (hv : 0 ≤ v) (h : v ≤ 2 ^ (-1075 : Int)) :
    nearestRank v = 0 := by
  have hone : magnitude 1 = 2 * 2 ^ (-1075 : Int) := by
    have hgrid := magnitude_grid (j := 0) (k := 1) (by decide) (.inl rfl)
    rw [Nat.zero_mul, Nat.zero_add, Nat.cast_one, one_mul] at hgrid
    rw [hgrid, ← zpow_one_add₀ (by norm_num)]
    rfl
  have hpos := two_zpow_pos (-1075)
  rw [nearestRank_eq_iff hv]
  refine .of_around (s := 1) (by decide) (by rwa [magnitude_zero]) ?_ (.inl ⟨rfl, rfl⟩) ?_
    fun _ => rfl
  · rw [hone]
    linarith
  · rw [magnitude_zero, hone, sub_zero, abs_of_nonneg hv, abs_of_nonpos (by linarith)]
    linarith

/-- The powers that are not taken would not count: a decimal is read as the nearest double. -/
theorem ofDecimal_eq (negative : Bool) (d : Decimal) :
    ofDecimal negative d = ofMagnitude negative d.value := by
  have hnonneg : 0 ≤ d.value := mul_nonneg (Nat.cast_nonneg _) (by positivity)
  have hzero (h : nearestRank d.value = 0) : zero negative = ofMagnitude negative d.value := by
    simp only [zero, ofMagnitude, h]
  unfold ofDecimal
  split
  case isTrue h =>
    refine hzero ?_
    rw [Bool.or_eq_true, decide_eq_true_eq, decide_eq_true_eq] at h
    rcases h with h | h
    · have hvalue : d.value = 0 := by rw [Decimal.value, h, Nat.cast_zero, zero_mul]
      rw [hvalue]
      rfl
    · refine nearestRank_of_small hnonneg (le_trans (d.value_lt.le) ?_)
      have hten : (10 : Rat) ^ d.pointPlace ≤ 10 ^ (-330 : Int) :=
        zpow_le_zpow_right₀ (by norm_num) h.le
      -- half the least positive magnitude is greater still
      refine hten.trans ?_
      rw [zpow_neg, zpow_neg]
      exact inv_anti₀ (two_zpow_pos 1075) (two_zpow_le_ten_zpow (a := 52) (b := 22) (by norm_num))
  case isFalse h =>
    split
    case isTrue hlarge =>
      have hpos : 0 < d.digits := Nat.pos_of_ne_zero fun hd => h (by simp [hd])
      have hten : (10 : Rat) ^ 310 ≤ d.value := by
        by_contra hlt
        have := Decimal.pointPlace_le (not_le.mp hlt) hpos
        omega
      have htwo := two_zpow_le_ten_zpow (a := 1) (b := 2) (by norm_num)
      rw [← zpow_natCast] at hten
      have hinfinite : nearestRank d.value = infinityRank :=
        nearestRank_of_large (htwo.trans hten)
      simp only [infinity, ofMagnitude, hinfinite]
    case isFalse => rfl

/-- The numerals of doubles, and what they write: after a sign, infinity or no number by their
names in any case, or the nearest double of a decimal number. -/
inductive Literal : List Char → Binary64 → Prop
  | infinity {sign name : List Char} {negative : Bool} (hsign : Sign sign negative)
      (hname : small name = "inf" ∨ small name = "infinity") :
      Literal (sign ++ name) (.infinity negative)
  | nan {sign name : List Char} {negative : Bool} (hsign : Sign sign negative)
      (hname : small name = "nan") : Literal (sign ++ name) .nan
  | number {sign mantissa whole fraction power : List Char} {negative : Bool} {e : Int}
      {rank : Fin (infinityRank + 1)} (hsign : Sign sign negative)
      (hmantissa : Mantissa mantissa whole fraction) (hpower : Power power e)
      (hrank : IsNearest (Decimal.worth (whole ++ fraction) * 10 ^ (e - fraction.length)) rank) :
      Literal (sign ++ (mantissa ++ power)) (.ranked negative rank)

theorem ofMagnitude_eq_iff {v : Rat} (hv : 0 ≤ v) {rank : Fin (infinityRank + 1)} :
    ofMagnitude negative v = ranked negative rank ↔ IsNearest v rank := by
  rw [← nearestRank_eq_iff hv, ofMagnitude, ranked.injEq, Fin.ext_iff]
  simp

theorem head?_of_small {s : String} (h : small cs = s) :
    cs.head?.map Char.toLower = s.toList.head? := by
  rw [← Text.map_toLower_of_small h, List.head?_map]

/-- A name in small letters begins with a letter, if it does with anything. -/
theorem isAlpha_of_small {s : String} (h : small cs = s)
    (hs : s.toList.head?.all Char.isAlpha = true) {c : Char} (hc : cs.head? = some c) :
    c.toLower.isAlpha = true := by
  rw [← head?_of_small h, hc] at hs
  exact hs

theorem unsigned_of_small {s : String} (h : small cs = s)
    (hs : s.toList.head?.all Char.isAlpha = true) : Decimal.Unsigned cs := by
  intro c hc
  have hletter := isAlpha_of_small h hs hc
  constructor <;> rintro rfl <;> revert hletter <;> decide

/-- Numbers begin with a digit or a point, so they are no names. -/
theorem small_ne_of_number {mantissa whole fraction power : List Char}
    (h : Mantissa mantissa whole fraction) {s : String}
    (hs : s.toList.head?.all Char.isAlpha = true) : small (mantissa ++ power) ≠ s := by
  intro he
  obtain ⟨c, hc, hcase⟩ := h.head power
  have hletter := isAlpha_of_small he hs hc
  rcases hcase with hdigit | rfl
  · rw [← Text.isDigit_toLower] at hdigit
    exact Text.not_isAlpha_of_isDigit hdigit hletter
  · revert hletter
    decide

/-- What is read as a double are the literals. -/
theorem read?_eq_some_iff : read? cs = some x ↔ Literal cs x := by
  constructor
  · intro h
    obtain ⟨sign, hsign, hcs⟩ := Decimal.exists_sign cs
    unfold read? at h
    generalize Decimal.spanSign cs = parts at h hsign hcs
    obtain ⟨negative, body⟩ := parts
    subst hcs
    dsimp only at h hsign ⊢
    split at h
    case isTrue hname =>
      cases h
      exact .infinity hsign (by simpa [small] using hname)
    case isFalse =>
      split at h
      case isTrue hname =>
        cases h
        exact .nan hsign hname
      case isFalse =>
        obtain ⟨d, hd, rfl⟩ := Option.map_eq_some_iff.mp h
        obtain ⟨mantissa, whole, fraction, power, e, rfl, hmantissa, hpower, rfl⟩ :=
          Decimal.unsigned?_eq_some_iff.mp hd
        rw [ofDecimal_eq]
        refine .number hsign hmantissa hpower (isNearest_nearestRank ?_)
        positivity
  · intro h
    cases h with
    | @infinity sign name negative hsign hname =>
      have hbody : Decimal.Unsigned _ := hname.elim
        (unsigned_of_small · (by decide)) (unsigned_of_small · (by decide))
      have hname' : (small name = "inf" || small name = "infinity") = true := by simpa using hname
      rw [read?, Decimal.spanSign_append hsign hbody]
      exact if_pos hname'
    | nan hsign hname =>
      rw [read?, Decimal.spanSign_append hsign (unsigned_of_small hname (by decide))]
      dsimp only
      rw [← small, hname]
      rfl
    | @number sign mantissa whole fraction power negative e rank hsign hmantissa hpower hrank =>
      have hd := Decimal.unsigned?_eq_some_iff.mpr
        ⟨mantissa, whole, fraction, power, e, rfl, hmantissa, hpower, rfl⟩
      rw [read?, Decimal.spanSign_append hsign (hmantissa.unsigned power)]
      dsimp only
      rw [← small, if_neg, if_neg (small_ne_of_number hmantissa (by decide)), hd, Option.map_some,
        ofDecimal_eq]
      · have hnonneg : (0 : Rat) ≤ Decimal.worth (whole ++ fraction) * 10 ^ (e - fraction.length) :=
          by positivity
        exact congrArg some ((ofMagnitude_eq_iff hnonneg).mpr hrank)
      · simpa using And.intro (small_ne_of_number hmantissa (by decide) : _ ≠ "inf")
          (small_ne_of_number hmantissa (by decide) : _ ≠ "infinity")

theorem Literal.isBlank_eq_false (h : Literal cs x) : ∀ c ∈ cs, Text.isBlank c = false := by
  have hsign {sign : List Char} {negative : Bool} (hs : Decimal.Sign sign negative) :
      ∀ c ∈ sign, Text.isBlank c = false := by
    cases hs with
    | absent => exact List.forall_mem_nil _
    | plus => exact List.forall_mem_singleton.mpr rfl
    | minus => exact List.forall_mem_singleton.mpr rfl
  have hdigits {ds : List Char} (hds : ∀ c ∈ ds, c.isDigit = true) :
      ∀ c ∈ ds, Text.isBlank c = false := fun c hc => Text.not_isBlank_of_isDigit (hds c hc)
  cases h with
  | infinity hs hname =>
    refine List.forall_mem_append.mpr ⟨hsign hs, ?_⟩
    rcases hname with hname | hname <;> exact Text.isBlank_of_small hname (by decide)
  | nan hs hname =>
    exact List.forall_mem_append.mpr ⟨hsign hs, Text.isBlank_of_small hname (by decide)⟩
  | number hs hmantissa hpower hrank =>
    refine List.forall_mem_append.mpr ⟨hsign hs, List.forall_mem_append.mpr ⟨?_, ?_⟩⟩
    · cases hmantissa with
      | whole hds => exact hdigits hds.2
      | pointed hds hes _ =>
        exact List.forall_mem_append.mpr
          ⟨hdigits hds, List.forall_mem_cons.mpr ⟨by decide, hdigits hes⟩⟩
    · cases hpower with
      | absent => exact List.forall_mem_nil _
      | given hc hs hds =>
        refine List.forall_mem_cons.mpr ⟨?_, List.forall_mem_append.mpr ⟨hsign hs, hdigits hds.2⟩⟩
        rcases hc with rfl | rfl <;> decide

/-- Behind a sign nothing is a name. -/
theorem small_of_sign {sign body : List Char} {negative : Bool} {s : String}
    (hsign : Decimal.Sign sign negative) (h : small (sign ++ body) = s)
    (hs : s.toList.head?.all Char.isAlpha = true) : small body = s := by
  cases hsign with
  | absent => exact h
  | plus => exact absurd (isAlpha_of_small h hs rfl) (by decide)
  | minus => exact absurd (isAlpha_of_small h hs rfl) (by decide)

/-- The only names among the literals are those of infinity and of no number. -/
theorem Literal.small_ne {s : String} (h : Literal cs x)
    (hs : s.toList.head?.all Char.isAlpha = true) (hne : s ∉ ["inf", "infinity", "nan"]) :
    small cs ≠ s := by
  intro he
  refine hne ?_
  cases h with
  | infinity hsign hname =>
    rw [← small_of_sign hsign he hs]
    rcases hname with hname | hname <;> simp [hname]
  | nan hsign hname =>
    rw [← small_of_sign hsign he hs, hname]
    decide
  | number hsign hmantissa _ _ =>
    exact absurd (small_of_sign hsign he hs) (small_ne_of_number hmantissa hs)

/-- Digits around a point write the number that they are worth. -/
theorem literal_of_mantissa {mantissa whole fraction : List Char} {v : Rat}
    (h : Decimal.Mantissa mantissa whole fraction)
    (hv : Decimal.worth (whole ++ fraction) * 10 ^ (-(fraction.length : Int)) = v) :
    Literal mantissa (.ofRat v) := by
  have hnonneg : 0 ≤ v := hv ▸ by positivity
  have hnear : IsNearest (Decimal.worth (whole ++ fraction) * 10 ^ (0 - (fraction.length : Int)))
      (nearestRank v) := by
    rw [zero_sub, hv]
    exact isNearest_nearestRank hnonneg
  have hliteral : Literal ([] ++ (mantissa ++ [])) (ofMagnitude false v) :=
    .number .absent h .absent hnear
  rwa [List.nil_append, List.append_nil, ← ofRat_of_nonneg hnonneg] at hliteral

end Binary64

end KineticAlphabet
