import KineticAlphabet.Json.Basic
import KineticAlphabet.Json.Number
import KineticAlphabet.Proofs.Rounding
/-!
The texts of numbers. A numeral without superfluous zeros in front is read as far as it goes,
whatever stands behind it that does not go on with it. The text of a whole number is such a numeral,
and so is that of a finite double, because the shortest decimal of a double other than zero has a
digit other than zero.
-/
namespace KineticAlphabet

namespace Decimal

def Digits (cs : List Char) : Prop := cs ≠ [] ∧ ∀ c ∈ cs, c.isDigit = true

theorem Digits.append_right {cs ds : List Char} (h : Digits cs) (hd : ∀ c ∈ ds, c.isDigit = true) :
    Digits (cs ++ ds) :=
  ⟨List.append_ne_nil_of_left_ne_nil h.1 ds, fun c hc =>
    (List.mem_append.mp hc).elim (h.2 c) (hd c)⟩

theorem isDigit_of_mem_replicate {n : Nat} {c : Char} (h : c ∈ List.replicate n '0') :
    c.isDigit = true := by
  rw [List.eq_of_mem_replicate h]
  rfl

theorem digits_numeral (n : Nat) : Digits (numeral n) :=
  ⟨List.ne_nil_of_length_pos Nat.length_toDigits_pos,
    fun _ hc => Nat.isDigit_of_mem_toDigits (by decide) (by decide) hc⟩

/-- Only zero begins with a zero. -/
theorem head?_numeral {n : Nat} (hn : 0 < n) : (numeral n).head? ≠ some '0' := by
  induction n using Nat.strongRecOn with
  | _ n ih =>
    by_cases hlt : n < 10
    · have hsingle : ∀ n < 10, 0 < n → (numeral n).head? ≠ some '0' := by decide
      exact hsingle n hlt hn
    · have hdiv : 0 < n / 10 := Nat.div_pos (not_lt.mp hlt) (by decide)
      have hnext : numeral n = numeral (n / 10) ++ [(n % 10).digitChar] := by
        rw [numeral, Nat.toDigits_eq_if (by decide), if_neg hlt, numeral]
      rw [hnext, List.head?_append_of_ne_nil _ (digits_numeral (n / 10)).1]
      exact ih (n / 10) (Nat.div_lt_self hn (by decide)) hdiv

/-- Digits are taken as far as they go. -/
theorem spanDigits_append {ds rest : List Char} (hd : ∀ c ∈ ds, c.isDigit = true)
    (hr : ∀ c, rest.head? = some c → c.isDigit = false) :
    spanDigits (ds ++ rest) = (ds, rest) := by
  have hrest : rest.takeWhile Char.isDigit = [] ∧ rest.dropWhile Char.isDigit = rest := by
    cases rest with
    | nil => exact ⟨rfl, rfl⟩
    | cons c cs => simp [hr c rfl]
  rw [spanDigits, List.takeWhile_append_of_pos hd, List.dropWhile_append_of_pos hd, hrest.1,
    hrest.2, List.append_nil]

end Decimal

namespace Json.Numeral

open Decimal (Digits)

def fractionText : Option (List Char) → List Char
  | none => []
  | some ds => '.' :: ds

def powerText : Option (Bool × List Char) → List Char
  | none => []
  | some (down, ds) => 'e' :: (if down then '-' else '+') :: ds

def text (n : Numeral) : List Char :=
  (if n.negative then ['-'] else []) ++ (n.whole ++ (fractionText n.fraction ++ powerText n.power))

/-- All parts have digits, and the whole does not begin with a zero in front of others. -/
structure WellFormed (n : Numeral) : Prop where
  whole : Digits n.whole
  leading : n.whole.head? = some '0' → n.whole.length = 1
  fraction : ∀ ds, n.fraction = some ds → Digits ds
  power : ∀ down ds, n.power = some (down, ds) → Digits ds

/-- What may stand behind a number: nothing that goes on with it. -/
def Ends (rest : List Char) : Prop :=
  ∀ c, rest.head? = some c → c.isDigit = false ∧ c ≠ '.' ∧ c ≠ 'e' ∧ c ≠ 'E'

variable {n : Numeral} {rest : List Char}

theorem power?_text {power : Option (Bool × List Char)}
    (h : ∀ down ds, power = some (down, ds) → Digits ds) (hr : Ends rest) :
    power? (powerText power ++ rest) = some (power, rest) := by
  rcases power with _ | ⟨down, ds⟩
  · cases rest with
    | nil => rfl
    | cons c cs =>
      obtain ⟨-, -, he, hE⟩ := hr c rfl
      simp [powerText, power?, he, hE]
  · have hds := h down ds rfl
    have hspan := Decimal.spanDigits_append hds.2 fun c hc => (hr c hc).1
    cases down <;> simp [powerText, power?, Decimal.spanSign, hspan, hds.1]

theorem fraction?_text {fraction : Option (List Char)}
    (h : ∀ ds, fraction = some ds → Digits ds)
    (hr : ∀ c, rest.head? = some c → c.isDigit = false ∧ c ≠ '.') :
    fraction? (fractionText fraction ++ rest) = some (fraction, rest) := by
  cases fraction with
  | none =>
    cases rest with
    | nil => rfl
    | cons c cs =>
      rw [fractionText, List.nil_append, fraction?]
      intro cs' heq
      exact (hr c rfl).2 (List.cons.inj heq).1
  | some ds =>
    have hspan := Decimal.spanDigits_append (h ds rfl).2 fun c hc => (hr c hc).1
    simp [fractionText, fraction?, hspan, (h ds rfl).1]

/-- Neither a power of ten nor what ends a number goes on with its fraction. -/
theorem head?_powerText (power : Option (Bool × List Char)) (hr : Ends rest) (c : Char)
    (hc : (powerText power ++ rest).head? = some c) : c.isDigit = false ∧ c ≠ '.' := by
  rcases power with _ | ⟨down, ds⟩
  · exact ⟨(hr c hc).1, (hr c hc).2.1⟩
  · cases hc
    decide

theorem head?_fractionText (fraction : Option (List Char)) {tail : List Char}
    (ht : ∀ c, tail.head? = some c → c.isDigit = false) (c : Char)
    (hc : (fractionText fraction ++ tail).head? = some c) : c.isDigit = false := by
  cases fraction with
  | none => exact ht c hc
  | some ds =>
    cases hc
    decide

theorem exists_text_eq_cons (h : n.WellFormed) :
    ∃ c cs, n.text = c :: cs ∧ (c.isDigit = true ∨ c = '-') := by
  rw [text]
  cases n.negative with
  | true => exact ⟨'-', _, rfl, .inr rfl⟩
  | false =>
    obtain ⟨c, cs, hc⟩ := List.exists_cons_of_ne_nil h.whole.1
    rw [hc]
    exact ⟨c, _, rfl, .inl (h.whole.2 c (hc ▸ List.mem_cons_self))⟩

/-- The number at the front of a text behind its sign, and the rest. -/
def spanUnsigned? (negative : Bool) (cs : List Char) : Option (Numeral × List Char) := do
  let (whole, cs) := Decimal.spanDigits cs
  if whole.isEmpty || (whole.head? = some '0' && 1 < whole.length) then none
  else
    let (fraction, cs) ← fraction? cs
    let (power, cs) ← power? cs
    return (⟨negative, whole, fraction, power⟩, cs)

theorem span?_negative (cs : List Char) : span? ('-' :: cs) = spanUnsigned? true cs := rfl

theorem span?_unsigned {cs : List Char} (h : cs.head? ≠ some '-') :
    span? cs = spanUnsigned? false cs := by
  rw [span?, spanUnsigned?]
  rintro cs' rfl
  exact h rfl

/-- A well-formed number is read as far as it goes. -/
theorem span?_text (h : n.WellFormed) (hr : Ends rest) :
    span? (n.text ++ rest) = some (n, rest) := by
  obtain ⟨negative, whole, fraction, power⟩ := n
  let tail := fractionText fraction ++ (powerText power ++ rest)
  have htail := head?_powerText power hr
  have hwhole : Decimal.spanDigits (whole ++ tail) = (whole, tail) :=
    Decimal.spanDigits_append h.whole.2
      (head?_fractionText fraction fun c hc => (htail c hc).1)
  have hleading : (whole.isEmpty || (whole.head? = some '0' && decide (1 < whole.length))) =
      false := by
    have hne : whole.isEmpty = false := List.isEmpty_eq_false_iff.mpr h.whole.1
    rw [hne, Bool.false_or, Bool.and_eq_false_iff, decide_eq_false_iff_not, decide_eq_false_iff_not]
    by_cases hzero : whole.head? = some '0'
    · exact .inr (by rw [h.leading hzero]; decide)
    · exact .inl hzero
  have hparts : spanUnsigned? negative (whole ++ tail) =
      some (⟨negative, whole, fraction, power⟩, rest) := by
    simp only [spanUnsigned?, hwhole, hleading, Bool.false_eq_true, if_false, tail,
      fraction?_text h.fraction htail, Option.bind_eq_bind, Option.bind_some,
      power?_text h.power hr]
    rfl
  have htext : text ⟨negative, whole, fraction, power⟩ ++ rest =
      (if negative then ['-'] else []) ++ (whole ++ tail) := by
    simp only [text, tail, List.append_assoc]
  rw [htext, ← hparts]
  cases negative with
  | true => exact span?_negative (whole ++ tail)
  | false =>
    refine span?_unsigned ?_
    obtain ⟨c, cs, rfl⟩ := List.exists_cons_of_ne_nil h.whole.1
    rintro ⟨⟩
    exact absurd (h.whole.2 '-' List.mem_cons_self) (by decide)

/-- The numeral of a whole number without a zero in front of others. -/
theorem leading_numeral {k : Nat} (h : (Decimal.numeral k).head? = some '0') :
    (Decimal.numeral k).length = 1 := by
  rcases Nat.eq_zero_or_pos k with rfl | hk
  · rfl
  · exact absurd h (Decimal.head?_numeral hk)

def ofInt (k : Int) : Numeral := ⟨decide (k < 0), Decimal.numeral k.natAbs, none, none⟩

theorem wellFormed_ofInt (k : Int) : (ofInt k).WellFormed :=
  ⟨Decimal.digits_numeral _, leading_numeral, nofun, nofun⟩

theorem text_ofInt (k : Int) : (intText k).toList = (ofInt k).text := by
  by_cases hk : k < 0 <;> simp [intText, ofInt, text, fractionText, powerText, hk]

/-- The numeral of a decimal with all its digits around a point. -/
def positional (negative : Bool) (d : Decimal) : Numeral :=
  let ds := Decimal.numeral d.digits
  let zeros (n : Nat) : List Char := List.replicate n '0'
  if 0 ≤ d.exponent then ⟨negative, ds ++ zeros d.exponent.toNat, some ['0'], none⟩
  else if 0 < d.pointPlace then
    ⟨negative, ds.take d.pointPlace.toNat, some (ds.drop d.pointPlace.toNat), none⟩
  else ⟨negative, ['0'], some (zeros (-d.pointPlace).toNat ++ ds), none⟩

/-- The numeral of a decimal with one digit in front of the point. -/
def scientific (negative : Bool) (d : Decimal) : Numeral :=
  let ds := Decimal.numeral d.digits
  let power := d.pointPlace - 1
  ⟨negative, ds.take 1, if 1 < ds.length then some (ds.drop 1) else none,
    some (decide (power < 0), Decimal.numeral power.natAbs)⟩

theorem text_positional (negative : Bool) (d : Decimal) : (positional negative d).text =
    (if negative then ['-'] else []) ++ (d.positional true).toList := by
  unfold positional Decimal.positional
  split
  case isTrue => simp [text, fractionText, powerText]
  case isFalse => split <;> simp [text, fractionText, powerText]

theorem text_scientific (negative : Bool) (d : Decimal) : (scientific negative d).text =
    (if negative then ['-'] else []) ++ d.scientific.toList := by
  unfold scientific Decimal.scientific
  by_cases hlength : 1 < (Decimal.numeral d.digits).length <;>
    simp [text, fractionText, powerText, hlength]

variable {d : Decimal}

theorem digits_zero : Digits ['0'] := ⟨nofun, List.forall_mem_singleton.mpr rfl⟩

/-- Around a point a decimal is well formed, unless it is zero with zeros behind. -/
theorem wellFormed_positional (negative : Bool) (h : d.digits = 0 → d.exponent ≤ 0) :
    (positional negative d).WellFormed := by
  have hds := Decimal.digits_numeral d.digits
  unfold positional
  split
  case isTrue hexp =>
    refine ⟨hds.append_right fun _ => Decimal.isDigit_of_mem_replicate, fun hhead => ?_, ?_, nofun⟩
    · dsimp only at hhead ⊢
      rw [List.head?_append_of_ne_nil _ hds.1] at hhead
      rcases Nat.eq_zero_or_pos d.digits with hzero | hpos
      · have hnone : d.exponent.toNat = 0 := by
          have := h hzero
          omega
        rw [hnone, List.replicate_zero, List.append_nil]
        exact leading_numeral hhead
      · exact absurd hhead (Decimal.head?_numeral hpos)
    · rintro _ ⟨⟩
      exact digits_zero
  case isFalse hexp =>
  split
  case isTrue hplace =>
    have hlt : d.pointPlace.toNat < (Decimal.numeral d.digits).length := by
      simp only [Decimal.pointPlace] at hplace ⊢
      omega
    have hwhole : d.pointPlace.toNat ≠ 0 := by omega
    have hpos : 0 < d.digits := by
      rcases Nat.eq_zero_or_pos d.digits with hzero | hpos
      · rw [hzero] at hlt
        have : (Decimal.numeral 0).length = 1 := rfl
        omega
      · exact hpos
    refine ⟨⟨fun hnil => ?_, fun c hc => hds.2 c (List.mem_of_mem_take hc)⟩, fun hhead => ?_, ?_,
      nofun⟩
    · exact (List.take_eq_nil_iff.mp hnil).elim hwhole hds.1
    · dsimp only at hhead
      rw [List.head?_take, if_neg hwhole] at hhead
      exact absurd hhead (Decimal.head?_numeral hpos)
    · rintro _ ⟨⟩
      exact ⟨List.ne_nil_of_length_pos (by rw [List.length_drop]; omega),
        fun c hc => hds.2 c (List.mem_of_mem_drop hc)⟩
  case isFalse hplace =>
    refine ⟨digits_zero, fun _ => rfl, ?_, nofun⟩
    rintro _ ⟨⟩
    refine ⟨List.append_ne_nil_of_right_ne_nil _ hds.1, fun c hc => ?_⟩
    exact (List.mem_append.mp hc).elim Decimal.isDigit_of_mem_replicate (hds.2 c)

/-- With one digit in front of the point it is well formed always. -/
theorem wellFormed_scientific (negative : Bool) (d : Decimal) :
    (scientific negative d).WellFormed := by
  have hds := Decimal.digits_numeral d.digits
  refine ⟨⟨fun hnil => ?_, fun c hc => hds.2 c (List.mem_of_mem_take hc)⟩, fun _ => ?_, ?_, ?_⟩
  · exact (List.take_eq_nil_iff.mp hnil).elim Nat.one_ne_zero hds.1
  · exact (List.length_take_of_le (List.length_pos_of_ne_nil hds.1))
  · intro ds h
    simp only [scientific, Option.ite_none_right_eq_some, Option.some.injEq] at h
    obtain ⟨hlength, rfl⟩ := h
    exact ⟨List.ne_nil_of_length_pos (by rw [List.length_drop]; omega),
      fun c hc => hds.2 c (List.mem_of_mem_drop hc)⟩
  · rintro _ _ ⟨⟩
    exact Decimal.digits_numeral _

end Json.Numeral

namespace Binary64

theorem magnitude_pos {rank : Nat} (h : 0 < rank) : 0 < magnitude rank := by
  have hm : 0 < mantissa rank := by
    rw [mantissa]
    split
    · exact h
    · exact Nat.add_pos_left (by decide) _
  exact mul_pos (by exact_mod_cast hm) (two_zpow_pos _)

/-- Zero rounds to no other double. -/
theorem roundsTo_zero {rank : Nat} (h : 0 < rank) : roundsTo rank 0 = false := by
  have hlow : 0 < halfway (rank - 1) := by
    rw [halfway, Nat.sub_add_cancel h]
    have := magnitude_nonneg (rank - 1)
    have := magnitude_pos h
    linarith
  simp only [roundsTo, not_le.mpr hlow, not_lt.mpr hlow.le, false_and, decide_false, ite_self]

/-- What is found on a grid lies on it and rounds to the double. -/
theorem nearestOnGrid_spec {tie : Tie} {rank : Nat} {power : Int} {d : Decimal}
    (h : nearestOnGrid tie rank power = some d) :
    d.exponent = power ∧ roundsTo rank d.value = true := by
  have hunit : (0 : Rat) < 10 ^ power := by positivity
  let below := (magnitude rank / 10 ^ power).floor
  obtain ⟨n, hn⟩ := Int.eq_ofNat_of_zero_le (a := below)
    (Int.floor_nonneg.mpr (div_nonneg (magnitude_nonneg rank) hunit.le))
  have hdown : roundsTo rank (below * 10 ^ power) = true →
      some (⟨below.toNat, power⟩ : Decimal) = some d →
      d.exponent = power ∧ roundsTo rank d.value = true := by
    rintro hr ⟨⟩
    rw [hn] at hr ⊢
    exact ⟨rfl, hr⟩
  have hup : roundsTo rank ((below + 1) * 10 ^ power) = true →
      some (⟨(below + 1).toNat, power⟩ : Decimal) = some d →
      d.exponent = power ∧ roundsTo rank d.value = true := by
    rintro hr ⟨⟩
    rw [hn] at hr ⊢
    refine ⟨rfl, ?_⟩
    rw [Decimal.value]
    exact_mod_cast hr
  unfold nearestOnGrid at h
  dsimp only at h
  split at h
  · cases h
  · next hlow _ => exact hdown hlow h
  · next _ hhigh => exact hup hhigh h
  · next hlow hhigh =>
    split at h
    · exact hdown hlow h
    split at h
    · exact hup hhigh h
    · cases tie with
      | up => exact hup hhigh h
      | even =>
        dsimp only at h
        split at h
        · exact hdown hlow h
        · exact hup hhigh h

/-- A decimal that rounds to a double other than zero has a digit other than zero. -/
theorem digits_pos_of_roundsTo {rank : Nat} {d : Decimal} (hrank : 0 < rank)
    (h : roundsTo rank d.value = true) : 0 < d.digits := by
  by_contra hn
  have hzero : d.digits = 0 := by omega
  rw [Decimal.value, hzero, Nat.cast_zero, zero_mul, roundsTo_zero hrank] at h
  cases h

theorem exponent_shortest {tie : Tie} {rank : Nat} (hrank : 0 < rank)
    (h : (shortest tie rank).digits = 0) : (shortest tie rank).exponent ≤ 0 := by
  simp only [shortest] at h ⊢
  generalize hfind : List.findSome? _ _ = found at h ⊢
  cases found with
  | none => exact le_rfl
  | some d =>
    obtain ⟨step, -, hd⟩ := List.exists_of_findSome?_eq_some hfind
    exact absurd h (Nat.ne_of_gt (digits_pos_of_roundsTo hrank (nearestOnGrid_spec hd).2))

end Binary64

namespace Json

/-- The text of a double is `null` or a well-formed number. -/
theorem exists_floatText (x : Binary64) : floatText x = "null" ∨
    ∃ n : Numeral, n.WellFormed ∧ (floatText x).toList = n.text := by
  cases x with
  | nan => exact .inl rfl
  | ranked negative rank =>
    by_cases hinf : rank.val = Binary64.infinityRank
    · left
      simp [floatText, hinf]
    by_cases hzero : rank.val = 0
    · right
      refine ⟨⟨negative, ['0'], some ['0'], none⟩,
        ⟨Numeral.digits_zero, fun _ => rfl, ?_, nofun⟩, ?_⟩
      · rintro _ ⟨⟩
        exact Numeral.digits_zero
      · rw [floatText, if_neg hinf, if_pos hzero]
        cases negative <;> rfl
    · right
      let d := Binary64.shortest .even rank
      have hd : d.digits = 0 → d.exponent ≤ 0 :=
        Binary64.exponent_shortest (Nat.pos_of_ne_zero hzero)
      by_cases hplace : -5 < d.pointPlace ∧ d.pointPlace ≤ 16
      · refine ⟨_, Numeral.wellFormed_positional negative hd, ?_⟩
        rw [Numeral.text_positional, floatText, if_neg hinf, if_neg hzero, if_pos hplace]
        cases negative <;> simp [d]
      · refine ⟨_, Numeral.wellFormed_scientific negative d, ?_⟩
        rw [Numeral.text_scientific, floatText, if_neg hinf, if_neg hzero, if_neg hplace]
        cases negative <;> simp [d]

end Json

end KineticAlphabet
