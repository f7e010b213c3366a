import KineticAlphabet.Position
import KineticAlphabet.Proofs.Literals
/-!
Labels of positions, as they may be written and as they are printed. The name of a group tells the
group whatever its case, since no name is a prefix of another, and its letters take as many bytes in
any case, so the label can be cut behind it. What follows is a whole number of 32 bits, of which a
group only takes those from one up to its limit, and these are written without a minus sign.
-/
namespace KineticAlphabet

open Decimal (Digits)
open Text (small Holds Tight)

namespace Decimal

variable {cs ds : List Char} {n : Nat}

theorem natural?_plus (hd : Digits ds) : natural? ('+' :: ds) = some (worth ds) := by
  simp only [natural?, isDigits_iff.mpr hd, Bool.false_eq_true, if_false]

theorem natural?_unsigned (hcs : ∀ tail, cs ≠ '+' :: tail) : natural? cs =
    if cs.isEmpty || !cs.all Char.isDigit then none else some (worth cs) := by
  simp only [natural?]

theorem natural?_digits (hd : Digits ds) : natural? ds = some (worth ds) := by
  have hsign : ∀ tail, ds ≠ '+' :: tail := by
    rintro tail rfl
    exact absurd rfl (hd.unsigned '+' rfl).2
  rw [natural?_unsigned hsign, isDigits_iff.mpr hd]
  rfl

theorem exists_plus (h : natural? cs = some n) :
    ∃ plus ds, cs = plus ++ ds ∧ (plus = [] ∨ plus = ['+']) ∧ Digits ds := by
  have hdigits {ds : List Char} (hds : (if ds.isEmpty || !ds.all Char.isDigit then none
      else some (worth ds)) = some n) : Digits ds := by
    split at hds
    case isTrue => cases hds
    case isFalse hd => exact isDigits_iff.mp (Bool.eq_false_iff.mpr hd)
  by_cases hplus : ∃ tail, cs = '+' :: tail
  · obtain ⟨tail, rfl⟩ := hplus
    exact ⟨['+'], tail, rfl, .inr rfl, hdigits h⟩
  · rw [natural?_unsigned fun tail he => hplus ⟨tail, he⟩] at h
    exact ⟨[], cs, rfl, .inl rfl, hdigits h⟩

/-- Natural numbers are digits after a plus sign, if there is one. -/
theorem natural?_eq_some_iff : natural? cs = some n ↔ ∃ plus ds, cs = plus ++ ds ∧
    (plus = [] ∨ plus = ['+']) ∧ Digits ds ∧ worth ds = n := by
  constructor
  · intro h
    obtain ⟨plus, ds, rfl, hplus, hd⟩ := exists_plus h
    refine ⟨plus, ds, rfl, hplus, hd, ?_⟩
    rcases hplus with rfl | rfl
    · exact Option.some.inj ((natural?_digits hd).symm.trans h)
    · exact Option.some.inj ((natural?_plus hd).symm.trans h)
  · rintro ⟨plus, ds, rfl, rfl | rfl, hd, rfl⟩
    · exact natural?_digits hd
    · exact natural?_plus hd

/-- The whole numbers of 32 bits are digits after a sign, if there is one. -/
theorem int32?_eq_some_iff {i : Int} : int32? cs = some i ↔ ∃ sign negative ds, cs = sign ++ ds ∧
    Sign sign negative ∧ Digits ds ∧ (i = if negative then -(worth ds : Int) else worth ds) ∧
    -2147483648 ≤ i ∧ i ≤ 2147483647 := by
  unfold int32?
  constructor
  · intro h
    obtain ⟨sign, hsign, hcs⟩ := exists_sign cs
    generalize spanSign cs = parts at h hsign hcs
    obtain ⟨negative, body⟩ := parts
    dsimp only at h hsign hcs
    split at h
    case isTrue => cases h
    case isFalse hbody =>
      have hdigits := isDigits_iff.mp (Bool.eq_false_iff.mpr hbody)
      obtain ⟨hrange, hi⟩ := Option.ite_none_right_eq_some.mp h
      obtain rfl := Option.some.inj hi
      exact ⟨sign, negative, body, hcs, hsign, hdigits, rfl, hrange⟩
  · rintro ⟨sign, negative, ds, rfl, hsign, hds, rfl, hrange⟩
    rw [spanSign_append hsign hds.unsigned]
    dsimp only
    rw [isDigits_iff.mpr hds, if_neg Bool.false_ne_true, if_pos hrange]

/-- Among the positive numbers that 32 bits hold these are the natural numbers: what follows a minus
sign is never positive. -/
theorem int32?_natCast (hpos : 0 < n) (hle : n ≤ 2147483647) :
    int32? cs = some (n : Int) ↔ natural? cs = some n := by
  rw [int32?_eq_some_iff, natural?_eq_some_iff]
  constructor
  · rintro ⟨sign, negative, ds, rfl, hsign, hds, hn, -⟩
    cases hsign with
    | absent => exact ⟨[], ds, rfl, .inl rfl, hds, by simpa using hn.symm⟩
    | plus => exact ⟨['+'], ds, rfl, .inr rfl, hds, by simpa using hn.symm⟩
    | minus =>
      rw [if_pos rfl] at hn
      omega
  · rintro ⟨plus, ds, rfl, hplus, hds, rfl⟩
    have hsign : Sign plus false := by
      rcases hplus with rfl | rfl
      · exact .absent
      · exact .plus
    exact ⟨plus, false, ds, rfl, hsign, hds, rfl, by omega, by omega⟩

end Decimal

namespace PositionGroup

variable {label : String} {g g' : PositionGroup}

def limit : PositionGroup → Nat
  | alpha | beta => 8
  | gamma => 16

theorem name_unique {cs : List Char} (h : g.name.toList <+: cs) (h' : g'.name.toList <+: cs) :
    g = g' := by
  obtain ⟨rest, rfl⟩ := h
  obtain ⟨rest', h'⟩ := h'
  cases g <;> cases g' <;> first | rfl | (simp [name] at h')

theorem mem_all (g : PositionGroup) : g ∈ all := by cases g <;> decide

/-- The only group whose name stands in front is found. -/
theorem find?_name_eq_some_iff {cs : List Char} :
    all.find? (fun g => g.name.toList.isPrefixOf cs) = some g ↔ g.name.toList <+: cs := by
  constructor
  · intro h
    have hg := List.find?_some h
    exact List.isPrefixOf_iff_prefix.mp hg
  · intro h
    cases hf : all.find? (fun g => g.name.toList.isPrefixOf cs) with
    | none =>
      have hno := List.find?_eq_none.mp hf g (mem_all g)
      exact absurd (List.isPrefixOf_iff_prefix.mpr h) hno
    | some g' =>
      have hg' := List.find?_some hf
      exact congrArg some (name_unique (List.isPrefixOf_iff_prefix.mp hg') h)

/-- The group of a label is the one whose name stands in front, whatever its case. -/
theorem ofLabel?_eq_some_iff : ofLabel? label = some g ↔
    ∃ word rest, Text.trimChars label.toList = word ++ rest ∧ small word = g.name := by
  have hbare : (Text.bare label).toList = (Text.trimChars label.toList).map Char.toLower := by
    simp [Text.bare, Text.lower, Text.trim]
  simp only [ofLabel?, find?_name_eq_some_iff, hbare]
  constructor
  · rintro ⟨rest, h⟩
    obtain ⟨word, rest, hcs, hword, -⟩ := List.map_eq_append_iff.mp h.symm
    exact ⟨word, rest, hcs, by rw [small, hword, String.ofList_toList]⟩
  · rintro ⟨word, rest, hcs, hword⟩
    rw [hcs, List.map_append, Text.map_toLower_of_small hword]
    exact List.prefix_append _ _

/-- Behind the name of its group a label can be cut in bytes: the letters of the name take as many
bytes in any case. -/
theorem exists_cut (h : ofLabel? label = some g) : ∃ front rest, Text.trim label = front ++ rest ∧
    front.utf8ByteSize = g.name.utf8ByteSize ∧
    rest.toList = (Text.trimChars label.toList).drop g.name.length := by
  obtain ⟨word, rest, htrim, hword⟩ := ofLabel?_eq_some_iff.mp h
  refine ⟨.ofList word, .ofList rest, ?_, ?_, ?_⟩
  · rw [Text.trim, htrim, String.ofList_append]
  · rw [← hword, Text.utf8ByteSize_small]
  · rw [← hword, Text.length_small, htrim, List.drop_left, String.toList_ofList]

end PositionGroup

namespace Position

variable {label : String} {g g' : PositionGroup} {n n' : Nat} {hands : Duo Location}

/-- A label as it may be written: between blanks, the name of a group in any case, a plus sign if
there is one, and digits. -/
inductive Names (label : String) : PositionGroup → Nat → Prop
  | intro {g : PositionGroup} {word plus digits : List Char}
      (hlabel : Holds label.toList (word ++ (plus ++ digits))) (hword : small word = g.name)
      (hplus : plus = [] ∨ plus = ['+']) (hdigits : Digits digits) :
      Names label g (Decimal.worth digits)

theorem isBlank_name (g : PositionGroup) : g.name.toList.any Text.isBlank = false := by
  cases g <;> decide

/-- The grammar of labels is what the reader takes off them. -/
theorem names_iff : Names label g n ↔ PositionGroup.ofLabel? label = some g ∧
    Decimal.natural? ((Text.trimChars label.toList).drop g.name.length) = some n := by
  constructor
  · rintro @⟨word, plus, digits, hlabel, hword, hplus, hdigits⟩
    have htight : Tight (word ++ (plus ++ digits)) := by
      refine .of_forall (List.forall_mem_append.mpr
        ⟨Text.isBlank_of_small hword (isBlank_name g), List.forall_mem_append.mpr ⟨?_, ?_⟩⟩)
      · rcases hplus with rfl | rfl
        · exact List.forall_mem_nil _
        · exact List.forall_mem_singleton.mpr rfl
      · exact fun c hc => Text.not_isBlank_of_isDigit (hdigits.2 c hc)
    have htrim := Text.trimChars_eq hlabel htight
    refine ⟨PositionGroup.ofLabel?_eq_some_iff.mpr ⟨word, _, htrim, hword⟩, ?_⟩
    rw [htrim, ← hword, Text.length_small, List.drop_left]
    exact Decimal.natural?_eq_some_iff.mpr ⟨plus, digits, rfl, hplus, hdigits, rfl⟩
  · rintro ⟨hg, hn⟩
    obtain ⟨word, rest, htrim, hword⟩ := PositionGroup.ofLabel?_eq_some_iff.mp hg
    rw [htrim, ← hword, Text.length_small, List.drop_left] at hn
    obtain ⟨plus, digits, rfl, hplus, hdigits, rfl⟩ := Decimal.natural?_eq_some_iff.mp hn
    exact .intro (htrim ▸ Text.holds_trimChars label.toList) hword hplus hdigits

theorem Names.unique (h : Names label g n) (h' : Names label g' n') : g = g' ∧ n = n' := by
  obtain ⟨hg, hn⟩ := names_iff.mp h
  obtain ⟨hg', hn'⟩ := names_iff.mp h'
  cases hg.symm.trans hg'
  exact ⟨rfl, Option.some.inj (hn.symm.trans hn')⟩

/-- Every number up to the highest stands for locations. -/
theorem exists_hands_iff {i : Int} :
    (∃ hands, hands? g i = some hands) ↔ 1 ≤ i ∧ i ≤ g.limit := by
  rw [← Option.isSome_iff_exists]
  cases g <;> simp only [hands?, PositionGroup.limit] <;> grind

/-- A number that stands for locations is a natural number far below the limit of 32 bits, so it is
read as one. -/
theorem ofLabel?_eq_some_iff : ofLabel? label = some hands ↔
    ∃ g, ∃ n : Nat, Names label g n ∧ hands? g n = some hands := by
  have hlimit : ∀ g : PositionGroup, g.limit ≤ 16 := by
    rintro (_ | _ | _) <;> decide
  simp only [ofLabel?, names_iff, Option.bind_eq_bind, Option.bind_eq_some_iff]
  constructor
  · rintro ⟨g, hg, i, hi, h⟩
    obtain ⟨hpos, hle⟩ := exists_hands_iff.mp ⟨hands, h⟩
    obtain ⟨n, rfl⟩ := Int.eq_ofNat_of_zero_le (a := i) (by omega)
    have hg' := hlimit g
    exact ⟨g, n, ⟨hg, (Decimal.int32?_natCast (by omega) (by omega)).mp hi⟩, h⟩
  · rintro ⟨g, n, ⟨hg, hn⟩, h⟩
    obtain ⟨hpos, hle⟩ := exists_hands_iff.mp ⟨hands, h⟩
    have hg' := hlimit g
    exact ⟨g, hg, n, (Decimal.int32?_natCast (by omega) (by omega)).mpr hn, h⟩

/-- Group and number are those of the locations that they stand for. -/
theorem hands?_spec (h : hands? g n = some hands) :
    PositionGroup.ofHands? hands = some g ∧ number hands = n := by
  have hn : n < 17 := by
    have hlimit := (exists_hands_iff.mp ⟨hands, h⟩).2
    cases g <;> simp only [PositionGroup.limit] at hlimit <;> omega
  have hall : ∀ n < 17, (hands? g (n : Nat)).all fun hands =>
      PositionGroup.ofHands? hands = some g ∧ number hands = n := by
    cases g <;> decide
  have hmem := hall n hn
  rw [h] at hmem
  simpa using hmem

theorem hands?_number (h : PositionGroup.ofHands? hands = some g) :
    hands? g (number hands) = some hands := by
  rcases hands with ⟨blue, red⟩
  cases blue <;> cases red <;> cases h <;> rfl

theorem label?_eq_some_iff {l : String} : label? hands = some l ↔
    ∃ g, PositionGroup.ofHands? hands = some g ∧
      g.name ++ String.ofList (Decimal.numeral (number hands)) = l := Option.map_eq_some_iff

/-- A printed label is written as labels may be. -/
theorem names_print (g : PositionGroup) (n : Nat) :
    Names (g.name ++ String.ofList (Decimal.numeral n)) g n := by
  have hchars : (g.name ++ String.ofList (Decimal.numeral n)).toList =
      g.name.toList ++ ([] ++ Decimal.numeral n) := by simp
  have hname : small g.name.toList = g.name := by cases g <;> decide
  have hlabel : Holds (g.name ++ String.ofList (Decimal.numeral n)).toList
      (g.name.toList ++ ([] ++ Decimal.numeral n)) := hchars ▸ Text.holds_self _
  have h := Names.intro hlabel hname (.inl rfl) (Decimal.digits_numeral n)
  rwa [Decimal.worth_numeral] at h

/-- A label is read just where it is written by the grammar with a number in its range. The
locations are those of that group and print as that label, without a sign and without leading zeros,
and every printed label is read back. Behind the name of the group there is always a character
boundary, where the label is cut. -/
theorem ofLabel?_inverts_label? :
    (∀ label : String, (∃ hands, ofLabel? label = some hands) ↔
      ∃ g n, Names label g n ∧ 1 ≤ n ∧ n ≤ g.limit) ∧
    (∀ (label : String) (hands : Duo Location) (g : PositionGroup) (n : Nat),
      ofLabel? label = some hands → Names label g n →
        label? hands = some (g.name ++ String.ofList (Decimal.numeral n)) ∧
          PositionGroup.ofHands? hands = some g) ∧
    (∀ (hands : Duo Location) (label : String), label? hands = some label →
      ofLabel? label = some hands) ∧
    ∀ (label : String) (g : PositionGroup), PositionGroup.ofLabel? label = some g →
      String.Pos.Raw.IsValid (Text.trim label) ⟨g.name.utf8ByteSize⟩ ∧
        ∃ front rest, Text.trim label = front ++ rest ∧
          front.utf8ByteSize = g.name.utf8ByteSize ∧
          rest.toList = (Text.trimChars label.toList).drop g.name.length := by
  refine ⟨fun label => ?_, fun label hands g n h hname => ?_, fun hands label h => ?_,
    fun label g h => ?_⟩
  · simp only [ofLabel?_eq_some_iff]
    constructor
    · rintro ⟨hands, g, n, hname, h⟩
      obtain ⟨hpos, hle⟩ := exists_hands_iff.mp ⟨hands, h⟩
      exact ⟨g, n, hname, by omega, by omega⟩
    · rintro ⟨g, n, hname, hpos, hle⟩
      obtain ⟨hands, h⟩ := exists_hands_iff.mpr (And.intro (Int.ofNat_le.mpr hpos)
        (Int.ofNat_le.mpr hle))
      exact ⟨hands, g, n, hname, h⟩
  · obtain ⟨g', n', hname', h⟩ := ofLabel?_eq_some_iff.mp h
    obtain ⟨rfl, rfl⟩ := hname.unique hname'
    obtain ⟨hgroup, hnumber⟩ := hands?_spec h
    exact ⟨label?_eq_some_iff.mpr ⟨g, hgroup, by rw [hnumber]⟩, hgroup⟩
  · obtain ⟨g, hgroup, rfl⟩ := label?_eq_some_iff.mp h
    exact ofLabel?_eq_some_iff.mpr ⟨g, number hands, names_print g _, hands?_number hgroup⟩
  · obtain ⟨front, rest, htrim, hsize, hrest⟩ := PositionGroup.exists_cut h
    refine ⟨?_, front, rest, htrim, hsize, hrest⟩
    rw [String.Pos.Raw.isValid_iff_exists_append]
    exact ⟨front, rest, htrim, by rw [← hsize]; rfl⟩

/-- A label in capitals with a sign and a leading zero, and one whose number is no number. -/
theorem ofLabel?_inverts_label?_gamma :
    Names " GAMMA+012\t" .gamma 12 ∧ ∃ hands, ofLabel? " GAMMA+012\t" = some hands ∧
      label? hands = some "gamma12" ∧ ofLabel? "gamma12" = some hands ∧
      PositionGroup.ofLabel? "betaé" = some .beta ∧
      String.Pos.Raw.IsValid (Text.trim "betaé") ⟨PositionGroup.beta.name.utf8ByteSize⟩ := by
  obtain ⟨haccept, hprint, hback, hcut⟩ := ofLabel?_inverts_label?
  have hname : Names " GAMMA+012\t" .gamma 12 := by
    have hlabel : Holds " GAMMA+012\t".toList ("GAMMA".toList ++ (['+'] ++ "012".toList)) :=
      ⟨[' '], ['\t'], by decide, List.forall_mem_singleton.mpr rfl,
        List.forall_mem_singleton.mpr rfl⟩
    have hdigits : Digits "012".toList := ⟨by decide, List.all_eq_true.mp (by decide)⟩
    exact .intro hlabel (by decide) (.inr rfl) hdigits
  have hbeta : PositionGroup.ofLabel? "betaé" = some .beta := by decide +kernel
  obtain ⟨hands, hhands⟩ := (haccept _).mpr ⟨.gamma, 12, hname, by decide, by decide⟩
  have hlabel : label? hands = some "gamma12" := (hprint _ _ _ _ hhands hname).1
  exact ⟨hname, hands, hhands, hlabel, hback _ _ hlabel, hbeta, (hcut _ _ hbeta).1⟩

end Position

end KineticAlphabet
