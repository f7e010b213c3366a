import KineticAlphabet.Proofs.Literals
import KineticAlphabet.Proofs.Roundtrip
/-!
Turns as numbers and as texts. A count of half turns is a double, so a number counts turns without
any rounding, or not at all; twice it is taken without loss, since what grows too large is no count
anyway. The text of a count is a literal of its number, and literals are read as what they write.
-/
namespace KineticAlphabet

open Binary64 (Literal)
open Text (small Holds Tight)

namespace Turns

variable {x : Binary64} {t : Turns} {text : String}

/-- Nothing is rounded, wrapped or cut off. -/
theorem exact_of_ofNumber (h : ofNumber x = .ok t) : ∃ (n : UInt32) (y : Binary64), t = half n ∧
    x.doubled.toRat? = some (n.toNat : Rat) ∧ t.value? = some y ∧ y.toRat? = x.toRat? := by
  obtain ⟨v, k, hx, hv, hk, hle, rfl⟩ := ofNumber_eq_ok_iff.mp h
  have htoNat : (UInt32.ofNat k).toNat = k :=
    UInt32.toNat_ofNat_of_lt (by rw [UInt32.size]; omega)
  have hhalf : ((UInt32.ofNat k).toNat : Rat) / 2 = v := by
    rw [htoNat, ← hk]
    ring
  refine ⟨.ofNat k, .ofRat v, rfl, ?_, ?_, ?_⟩
  · rw [toRat?_doubled_eq hx hv hk hle, htoNat]
  · rw [value?_half, hhalf]
  · rw [hx, ← hhalf]
    exact toRat?_ofRat_half (.ofNat k)

/-- A text is read as turns if it is, between blanks, the name of a float in any case or a literal
of a number that counts turns. -/
theorem read_eq_ok_iff : read text = .ok t ↔ ∃ body, Holds text.toList body ∧
    (((small body = "fl" ∨ small body = "float") ∧ t = float) ∨
      ∃ x, Literal body x ∧ ofNumber x = .ok t) := by
  constructor
  · intro h
    refine ⟨_, Text.holds_trimChars text.toList, ?_⟩
    unfold read at h
    dsimp only at h
    split at h
    case isTrue hname => exact .inl ⟨hname, (Except.ok.inj h).symm⟩
    case isFalse =>
      split at h
      case h_1 x hx => exact .inr ⟨x, Binary64.read?_eq_some_iff.mp hx, h⟩
      case h_2 => cases h
  · rintro ⟨body, hbody, ⟨hname, rfl⟩ | ⟨x, hx, ht⟩⟩
    · have htight : Tight body := .of_forall <| hname.elim
        (Text.isBlank_of_small · (by decide)) (Text.isBlank_of_small · (by decide))
      unfold read
      rw [Text.trimChars_eq hbody htight]
      exact if_pos hname
    · unfold read
      rw [Text.trimChars_eq hbody (.of_forall hx.isBlank_eq_false)]
      have hnot : ¬ (small body = "fl" ∨ small body = "float") := not_or.mpr
        ⟨hx.small_ne (by decide) (by decide), hx.small_ne (by decide) (by decide)⟩
      refine (if_neg hnot).trans ?_
      rw [Binary64.read?_eq_some_iff.mpr hx]
      exact ht

/-- The text of a count is a literal of the number of turns. -/
theorem literal_text (n : UInt32) :
    Literal (half n).text.toList (.ofRat ((n.toNat : Rat) / 2)) := by
  obtain ⟨k, hk⟩ : ∃ k, n.toNat / 2 = k := ⟨_, rfl⟩
  have hdigits := Decimal.digits_numeral k
  simp only [Turns.text, hk]
  split
  case isTrue heven =>
    rw [String.toList_ofList]
    refine Binary64.literal_of_mantissa (.whole hdigits) ?_
    have hn : (n.toNat : Rat) = 2 * k := by exact_mod_cast (show n.toNat = 2 * k by omega)
    rw [List.append_nil, Decimal.worth_numeral, hn]
    simp
  case isFalse hodd =>
    have htext : (String.ofList (Decimal.numeral k) ++ ".5").toList =
        Decimal.numeral k ++ '.' :: ['5'] := by simp
    have hfraction : ∀ c ∈ ['5'], c.isDigit = true := List.forall_mem_singleton.mpr rfl
    rw [htext]
    refine Binary64.literal_of_mantissa (.pointed hdigits.2 hfraction (by simp)) ?_
    have hn : (n.toNat : Rat) = 2 * k + 1 := by exact_mod_cast (show n.toNat = 2 * k + 1 by omega)
    have hfive : '5'.toNat - '0'.toNat = 5 := rfl
    rw [Decimal.worth_append_singleton, Decimal.worth_numeral, hn, hfive, List.length_singleton,
      Nat.cast_one, zpow_neg_one]
    push_cast
    ring

theorem read_text (t : Turns) : read t.text = .ok t := by
  cases t with
  | half n =>
    exact read_eq_ok_iff.mpr ⟨_, Text.holds_self _, .inr ⟨_, literal_text n, ofNumber_half n⟩⟩
  | float => exact read_eq_ok_iff.mpr ⟨_, Text.holds_self _, .inl ⟨.inl (by decide), rfl⟩⟩

/-- Turns come back from their texts, as they are shown and as they are stored. A number counts them
just where it is finite, not negative and half a whole number of 32 bits, and then the count is
exact. A text is read just where, between blanks, it is the name of a float or a literal of such a
number. -/
theorem read_ofNumber_exact :
    (∀ t : Turns, read t.text = .ok t ∧
      ∀ stored ∈ t.toJson.texts, Json.Doc.readText ofDoc stored = .ok t) ∧
    (∀ (x : Binary64) (t : Turns), (ofNumber x = .ok t ↔ ∃ (v : Rat) (k : Nat),
        x.toRat? = some v ∧ 0 ≤ v ∧ 2 * v = k ∧ k ≤ 4294967295 ∧ t = half (.ofNat k)) ∧
      (ofNumber x = .ok t → ∃ (n : UInt32) (y : Binary64), t = half n ∧
        x.doubled.toRat? = some (n.toNat : Rat) ∧ t.value? = some y ∧ y.toRat? = x.toRat?)) ∧
    ∀ (text : String) (t : Turns), read text = .ok t ↔ ∃ body, Holds text.toList body ∧
      (((small body = "fl" ∨ small body = "float") ∧ t = float) ∨
        ∃ x, Literal body x ∧ ofNumber x = .ok t) := by
  refine ⟨fun t => ⟨read_text t, fun stored h => ?_⟩,
    fun x t => ⟨ofNumber_eq_ok_iff, exact_of_ofNumber⟩, fun text t => read_eq_ok_iff⟩
  rw [Json.readText_of_mem_texts ofDoc h, ofDoc_toJson]

/-- One and a half turns, as they are stored and as a text with a power of ten. -/
theorem read_ofNumber_exact_threeHalves : Json.Doc.readText ofDoc "1.5" = .ok (half 3) ∧
    read " 15E-1\t" = .ok (half 3) ∧ ∃ (n : UInt32) (y : Binary64), half 3 = half n ∧
      (Binary64.ofRat (3 / 2)).doubled.toRat? = some (n.toNat : Rat) ∧
      (half 3).value? = some y ∧ y.toRat? = (Binary64.ofRat (3 / 2)).toRat? := by
  have hnumber : ofNumber (.ofRat (3 / 2)) = .ok (half 3) := ofNumber_half 3
  have hliteral : Literal "15E-1".toList (.ofRat (3 / 2)) :=
    Binary64.read?_eq_some_iff.mp (by decide +kernel)
  have hholds : Holds " 15E-1\t".toList "15E-1".toList :=
    ⟨[' '], ['\t'], by decide, List.forall_mem_singleton.mpr rfl,
      List.forall_mem_singleton.mpr rfl⟩
  obtain ⟨hback, hcount, hread⟩ := read_ofNumber_exact
  exact ⟨(hback (half 3)).2 "1.5" (by decide +kernel),
    (hread _ _).mpr ⟨_, hholds, .inr ⟨_, hliteral, hnumber⟩⟩, (hcount _ _).2 hnumber⟩

end Turns

end KineticAlphabet
