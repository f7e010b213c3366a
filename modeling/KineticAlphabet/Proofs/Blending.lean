import KineticAlphabet.Proofs.Consistency
import KineticAlphabet.Proofs.Filling
import KineticAlphabet.Proofs.Trimming
/-!
From a raw type text to the count of reversals. The words of the text decide, each as a whole and in
any case: the blend follows from the names that are mentioned, so it does not depend on their order,
on repetition or on what separates them, and it only grows when texts are joined. A record without a
blend of its own hands the blend of its text to the motion, and the count is at least its floor.
-/
namespace KineticAlphabet

open Json (Doc)

theorem MotionType.ofName?_eq_some_iff {s : String} {t : MotionType} :
    ofName? s = some t ↔ t.name = s := by
  constructor
  · intro h
    simpa using List.find?_some h
  · rintro rfl
    cases t <;> decide

namespace Blend

open Text (small)

variable {raw raw' name : String} {ws ws' : List (List Char)} {t : MotionType}

theorem isSeparator_toLower (c : Char) : isSeparator c.toLower = isSeparator c :=
  Text.apply_toLower (by decide) c

def Spells (raw : String) (ws : List (List Char)) : Prop := Text.MadeOf isSeparator ws raw.toList

/-- One of the words of a raw type text is a name, whatever its case. -/
def Mentions (raw name : String) : Prop := ∃ ws, Spells raw ws ∧ ∃ w ∈ ws, small w = name

/-- The first motion type that a raw type text mentions. -/
def MentionsFirst (raw : String) (t : MotionType) : Prop :=
  ∃ before w after, Spells raw (before ++ w :: after) ∧ small w = t.name ∧
    ∀ v ∈ before, ∀ t' : MotionType, small v ≠ t'.name

theorem spells_iff : Spells raw ws ↔ Text.words isSeparator raw.toList = ws :=
  Text.words_eq_iff.symm

/-- It does not matter whether the letters are made small before or after the words are cut. -/
theorem words_eq (h : Spells raw ws) : words raw = ws.map small := by
  have hempty : (fun w => !w.isEmpty) ∘ String.ofList = fun w : List Char => !w.isEmpty := by
    funext w
    cases w <;> simp
  have hwords : Text.words isSeparator (raw.toList.map Char.toLower) = ws.map (.map Char.toLower) :=
    (Text.words_map isSeparator_toLower raw.toList).trans (congrArg _ (spells_iff.mp h))
  rw [words, tokens, Text.lower, String.toList_ofList, List.filter_map, hempty, ← Text.words,
    hwords, List.map_map]
  rfl

/-- Empty tokens are no types, so the first type among some tokens is the first among the words. -/
theorem find?_tokens (ts : List String) :
    (ts.find? ["pro", "anti", "static", "dash", "float"].contains).map MotionType.read =
      (ts.filter fun w => !w.isEmpty).findSome? MotionType.ofName? := by
  induction ts with
  | nil => rfl
  | cons w ts ih =>
    cases h : MotionType.ofName? w with
    | some t =>
      obtain rfl : t.name = w := MotionType.ofName?_eq_some_iff.mp h
      cases t <;> rfl
    | none =>
      have hnot : ¬ ["pro", "anti", "static", "dash", "float"].contains w = true := by
        rw [List.contains_iff_mem]
        simp only [List.mem_cons, List.not_mem_nil, or_false]
        rintro (rfl | rfl | rfl | rfl | rfl) <;> cases h
      rw [List.find?_cons_of_neg hnot, ih]
      by_cases hw : w.isEmpty = true
      · rw [List.filter_cons_of_neg (by simpa using hw)]
      · rw [List.filter_cons_of_pos (by simpa using hw), List.findSome?_cons, h]

theorem baseType_eq (raw : String) :
    baseType raw = ((words raw).findSome? MotionType.ofName?).getD .pro := by
  rw [baseType, words, ← find?_tokens]

theorem mem_words_iff : name ∈ words raw ↔ Mentions raw name := by
  have hraw : Spells raw _ := spells_iff.mpr rfl
  rw [words_eq hraw, List.mem_map]
  constructor
  · rintro ⟨w, hw, hname⟩
    exact ⟨_, hraw, w, hw, hname⟩
  · rintro ⟨ws, hws, w, hw, hname⟩
    cases spells_iff.mp hws
    exact ⟨w, hw, hname⟩

theorem contains_words_iff : (words raw).contains name = true ↔ Mentions raw name :=
  List.contains_iff_mem.trans mem_words_iff

/-- A raw type text asks for a change of direction for both, or for pro with anti, or for no
blend. -/
theorem ofRaw_cases (raw : String) :
    (Mentions raw "both" ∧ ofRaw raw = both) ∨
      (¬ Mentions raw "both" ∧ (Mentions raw "pro" ∧ Mentions raw "anti") ∧ ofRaw raw = proAnti) ∨
      (¬ Mentions raw "both" ∧ ¬ (Mentions raw "pro" ∧ Mentions raw "anti") ∧
        ofRaw raw = single) := by
  have hpair : ((words raw).contains "pro" && (words raw).contains "anti") = true ↔
      Mentions raw "pro" ∧ Mentions raw "anti" := by
    rw [Bool.and_eq_true, contains_words_iff, contains_words_iff]
  rw [ofRaw, ofWords]
  by_cases hb : Mentions raw "both"
  · exact .inl ⟨hb, if_pos (contains_words_iff.mpr hb)⟩
  · have hnot := mt contains_words_iff.mp hb
    by_cases hp : Mentions raw "pro" ∧ Mentions raw "anti"
    · exact .inr (.inl ⟨hb, hp, (if_neg hnot).trans (if_pos (hpair.mpr hp))⟩)
    · exact .inr (.inr ⟨hb, hp, (if_neg hnot).trans (if_neg (mt hpair.mp hp))⟩)

/-- Where a raw type text mentions a motion type, its type is the first of them. -/
theorem mentionsFirst_baseType (h : Mentions raw t.name) : MentionsFirst raw (baseType raw) := by
  have hraw : Spells raw _ := spells_iff.mpr rfl
  have hbase : ∃ t', (words raw).findSome? MotionType.ofName? = some t' := by
    rw [← Option.isSome_iff_exists, List.findSome?_isSome_iff]
    exact ⟨t.name, mem_words_iff.mpr h, by rw [MotionType.ofName?_eq_some_iff.mpr rfl]; rfl⟩
  obtain ⟨t', ht'⟩ := hbase
  rw [baseType_eq, ht', Option.getD_some]
  rw [words_eq hraw, List.findSome?_map, List.findSome?_eq_some_iff] at ht'
  obtain ⟨before, w, after, hws, hw, hbefore⟩ := ht'
  refine ⟨before, w, after, hws ▸ hraw, (MotionType.ofName?_eq_some_iff.mp hw).symm, ?_⟩
  intro v hv t'' hname
  have hsome : MotionType.ofName? (small v) = some t'' :=
    MotionType.ofName?_eq_some_iff.mpr hname.symm
  exact Option.some_ne_none t'' (hsome.symm.trans (hbefore v hv))

/-- Order, repetition and case of the words and what stands between them do not count. -/
theorem ofRaw_congr (h : Spells raw ws) (h' : Spells raw' ws')
    (hsame : ∀ name, name ∈ ws.map small ↔ name ∈ ws'.map small) : ofRaw raw = ofRaw raw' := by
  simp only [ofRaw, ofWords, words_eq h, words_eq h', List.contains_iff_mem, Bool.and_eq_true,
    hsame]

/-- The more a raw type text mentions, the more reversals it holds at least. -/
theorem reversalFloor_mono (h : ∀ name, Mentions raw name → Mentions raw' name) :
    (ofRaw raw).reversalFloor ≤ (ofRaw raw').reversalFloor := by
  rcases ofRaw_cases raw with ⟨hb, hraw⟩ | ⟨-, hp, hraw⟩ | ⟨-, -, hraw⟩ <;>
    rcases ofRaw_cases raw' with ⟨hb', hraw'⟩ | ⟨hb', hp', hraw'⟩ | ⟨hb', hp', hraw'⟩ <;>
    rw [hraw, hraw']
  case inl.inr.inl => exact absurd (h _ hb) hb'
  case inl.inr.inr => exact absurd (h _ hb) hb'
  case inr.inl.inr.inr => exact absurd ⟨h _ hp.1, h _ hp.2⟩ hp'
  all_goals decide

theorem mentions_join {c : Char} (hc : isSeparator c = true) (a b : String) :
    Mentions (a.push c ++ b) name ↔ Mentions a name ∨ Mentions b name := by
  have hjoin : (a.push c ++ b).toList = a.toList ++ c :: b.toList := by simp
  simp only [← mem_words_iff, words_eq (spells_iff.mpr rfl), hjoin, Text.words_append _ hc,
    List.map_append, List.mem_append]

end Blend

theorem countReversals_le (ms : Motions) (history : List Beat) :
    countReversals ms history ≤ maxReversals := Nat.min_le_left _ _

theorem reversalFloor_le_countReversals {ms : Motions} {a : Actor} {m : Motion}
    (h : ms.get a = some m) (history : List Beat) :
    m.blend.reversalFloor ≤ countReversals ms history := by
  have hcap : m.blend.reversalFloor ≤ maxReversals := by cases m.blend <;> decide
  have hown : m.blend.reversalFloor ≤ m.reversals := Nat.le_max_left _ _
  have hshown : m.reversals ≤
      (ms.toList.map fun m? => (m?.map Motion.reversals).getD 0).foldl max 0 := by
    have hpair : ms.blue = some m ∨ ms.red = some m := by
      cases a with
      | blue => exact .inl h
      | red => exact .inr h
    simp only [Duo.toList, List.map_cons, List.map_nil, List.foldl_cons, List.foldl_nil]
    rcases hpair with hm | hm <;> rw [hm, Option.map_some, Option.getD_some] <;> omega
  exact Nat.le_min.mpr ⟨hcap, Nat.le_trans (Nat.le_trans hown hshown) (Nat.le_max_left _ _)⟩

namespace Motion

open Blend
open Text (small)

variable {raw : String} {d : Doc} {draft : Draft} {m : Motion}

/-- A record gives a raw type text, and no blend in a field of its own. -/
inductive GivesType (raw : String) : Doc → Prop
  | fields {fields : List (Option String × Doc)} (htype : (some "motionType", .str raw) ∈ fields)
      (hblend : ∀ d, (some "blend", d) ∈ fields → d = .null) : GivesType raw (.obj fields)
  | items {items : List Doc} : GivesType raw (.arr (.str raw :: .null :: items))

namespace Draft

/-- Only one slot touches the type, and only one the blend. -/
theorem read_touches {slot : Slot Doc Draft} (hslot : slot ∈ slots) {s s' : Draft}
    (h : slot.read d s = .ok s') :
    (slot.names = ["motionType"] ∨ s'.motionType = s.motionType) ∧
      (slot.names = ["blend"] ∨ s'.blend = s.blend) := by
  simp only [slots, List.mem_cons, List.not_mem_nil, or_false] at hslot
  rcases hslot with rfl | rfl | rfl | rfl | rfl | rfl | rfl | rfl | rfl <;>
    obtain ⟨_, -, h⟩ := bind_eq_ok_iff.mp h <;> cases h <;> simp

theorem motionType_of_readFields {fields : List (Option String × Doc)}
    {filled : List (List String)} (htype : (some "motionType", .str raw) ∈ fields)
    (h : readFields slots Doc.pass fields [] {} = .ok (filled, draft)) :
    draft.motionType = some raw := by
  have hslot : slots.find? (·.names.contains "motionType") = some slots[0] := rfl
  refine readFields_brings (P := fun s => s.motionType = some raw) htype hslot ?_ ?_ h
  · intro t t' ht
    cases ht
    rfl
  · intro other hother hne d t t' ht hraw
    exact ((read_touches hother ht).1.resolve_left hne).trans hraw

theorem blend_of_readFields {fields : List (Option String × Doc)} {filled : List (List String)}
    (hblend : ∀ d, (some "blend", d) ∈ fields → d = .null)
    (h : readFields slots Doc.pass fields [] {} = .ok (filled, draft)) : draft.blend = none := by
  refine readFields_keeps (P := fun s => s.blend = none) rfl ?_ h
  intro name d slot hmem hslot _ t t' ht hnone
  rcases (read_touches (List.mem_of_find?_eq_some hslot) ht).2 with hn | hsame
  · -- the slot of the blend has only one name, and under that name there is nothing
    have hname : name = "blend" := by simpa [hn] using List.find?_some hslot
    subst hname
    cases hblend d hmem
    cases hslot
    cases ht
    rfl
  · exact hsame.trans hnone

theorem of_readItems {items : List Doc}
    (h : readItems slots (.str raw :: .null :: items) {} = .ok draft) :
    draft.motionType = some raw ∧ draft.blend = none := by
  have hrest : readItems (slots.drop 2) items { motionType := some raw } = .ok draft := h
  have hnames : ∀ slot ∈ slots.drop 2, slot.names ≠ ["motionType"] ∧ slot.names ≠ ["blend"] := by
    decide
  refine readItems_keeps (P := fun s => s.motionType = some raw ∧ s.blend = none) ⟨rfl, rfl⟩ ?_
    hrest
  intro slot hslot d t t' ht hs
  have htouch := read_touches (List.mem_of_mem_drop hslot) ht
  exact ⟨(htouch.1.resolve_left (hnames slot hslot).1).trans hs.1,
    (htouch.2.resolve_left (hnames slot hslot).2).trans hs.2⟩

theorem of_record (hd : GivesType raw d) (h : d.record slots {} = .ok draft) :
    draft.motionType = some raw ∧ draft.blend = none := by
  cases hd with
  | fields htype hblend =>
    obtain ⟨⟨filled, s⟩, hread, h⟩ := bind_eq_ok_iff.mp h
    dsimp only at h
    split at h
    case isFalse => cases h
    case isTrue =>
      cases h
      exact ⟨motionType_of_readFields htype hread, blend_of_readFields hblend hread⟩
  | items => exact of_readItems h

/-- Only a raw type text that asks for no blend has to be a type as a whole. -/
theorem typeAndBlend_eq (raw : String) : typeAndBlend raw =
    (if Blend.ofRaw raw = .single then .read raw else Blend.baseType raw, Blend.ofRaw raw) := by
  unfold typeAndBlend
  cases h : Blend.ofRaw raw <;> simp

theorem typeAndBlend_of_toMotion (hraw : draft.motionType = some raw) (hblend : draft.blend = none)
    (h : draft.toMotion = .ok m) : (m.motionType, m.blend) = typeAndBlend raw := by
  obtain ⟨raw', hraw', h⟩ := bind_eq_ok_iff.mp h
  obtain ⟨start, -, h⟩ := bind_eq_ok_iff.mp h
  obtain ⟨stop, -, h⟩ := bind_eq_ok_iff.mp h
  obtain ⟨turns, -, h⟩ := bind_eq_ok_iff.mp h
  rw [hraw] at hraw'
  cases hraw'
  rw [hblend] at h
  generalize Draft.typeAndBlend raw = named at h ⊢
  cases hp : draft.path <;> rw [hp] at h <;> cases h <;> rfl

end Draft

theorem typeAndBlend_of_ofDoc (hd : GivesType raw d) (h : ofDoc d = .ok m) :
    (m.motionType, m.blend) = Draft.typeAndBlend raw := by
  obtain ⟨draft, hdraft, h⟩ := bind_eq_ok_iff.mp h
  obtain ⟨hraw, hblend⟩ := Draft.of_record hd hdraft
  exact Draft.typeAndBlend_of_toMotion hraw hblend h

/-- A raw type text is cut into words in one way. Where a record gives it and no blend, both as a
word makes for two reversals whatever came before, pro and anti for one at least, in a motion of the
type that is mentioned first, and anything else for a single motion. The blend only depends on which
words there are, and a text joined with another holds no fewer reversals than either. -/
theorem reversals_of_rawType (raw : String) :
    (∃! ws, Spells raw ws) ∧
    (∀ d m, GivesType raw d → ofDoc d = .ok m →
      m.blend = ofRaw raw ∧
      (Mentions raw "both" → ∀ (p : Pictograph) (a : Actor) (history : List Beat),
        p.motions.get a = some m → countReversals p.motions history = 2) ∧
      (¬ Mentions raw "both" → Mentions raw "pro" → Mentions raw "anti" →
        MentionsFirst raw m.motionType ∧ ∀ (p : Pictograph) (a : Actor) (history : List Beat),
          p.motions.get a = some m → 1 ≤ countReversals p.motions history) ∧
      (¬ Mentions raw "both" → ¬ (Mentions raw "pro" ∧ Mentions raw "anti") →
        m.blend = .single)) ∧
    (∀ raw' ws ws', Spells raw ws → Spells raw' ws' →
      (∀ name, name ∈ ws.map small ↔ name ∈ ws'.map small) → ofRaw raw = ofRaw raw') ∧
    ∀ (raw' : String) (c : Char), isSeparator c = true →
      max (ofRaw raw).reversalFloor (ofRaw raw').reversalFloor ≤
        (ofRaw (raw.push c ++ raw')).reversalFloor := by
  refine ⟨?_, fun d m hd hm => ?_, fun raw' ws ws' => ofRaw_congr, fun raw' c hc => ?_⟩
  · exact ⟨_, spells_iff.mpr rfl, fun ws hws => (spells_iff.mp hws).symm⟩
  · have hboth := typeAndBlend_of_ofDoc hd hm
    rw [Draft.typeAndBlend_eq, Prod.mk.injEq] at hboth
    obtain ⟨htype, hblend⟩ := hboth
    have hfloor {p : Pictograph} {a : Actor} (hp : p.motions.get a = some m)
        (history : List Beat) : (ofRaw raw).reversalFloor ≤ countReversals p.motions history :=
      hblend ▸ reversalFloor_le_countReversals hp history
    obtain ⟨hb, hraw⟩ | ⟨hb, hp, hraw⟩ | ⟨hb, hp, hraw⟩ := ofRaw_cases raw <;>
      rw [hraw] at hblend htype hfloor ⊢
    · refine ⟨hblend, fun _ p a history hpm => ?_, fun h => absurd hb h, fun h => absurd hb h⟩
      exact Nat.le_antisymm (countReversals_le p.motions history) (hfloor hpm history)
    · refine ⟨hblend, fun h => absurd h hb, fun _ hpro _ => ⟨?_, fun p a history hpm => ?_⟩,
        fun _ h => absurd hp h⟩
      · have hfirst : MentionsFirst raw (baseType raw) := mentionsFirst_baseType (t := .pro) hpro
        exact htype ▸ hfirst
      · exact hfloor hpm history
    · exact ⟨hblend, fun h => absurd h hb, fun _ hpro hanti => absurd ⟨hpro, hanti⟩ hp,
        fun _ _ => hblend⟩
  · refine Nat.max_le.mpr
      ⟨reversalFloor_mono fun name h => ?_, reversalFloor_mono fun name h => ?_⟩
    · exact (mentions_join hc raw raw').mpr (.inl h)
    · exact (mentions_join hc raw raw').mpr (.inr h)

def rawTyped (raw : String) : Doc :=
  .obj [(some "turns", .int 1), (some "motionType", .str raw), (some "startLocation", .str "n"),
    (some "endLocation", .str "s")]

theorem givesType_rawTyped (raw : String) : GivesType raw (rawTyped raw) :=
  .fields (by simp) (by simp)

theorem exists_of_isSome {ε α : Type} {x : Except ε α} (h : x.toOption.isSome = true) :
    ∃ a, x = .ok a := by
  obtain ⟨a, ha⟩ := Option.isSome_iff_exists.mp h
  exact ⟨a, ok_of_toOption ha⟩

/-- A dash that is mentioned before anti and pro shows a reversal by itself, and one with both for a
word shows two. -/
theorem reversals_of_rawType_dash : ∃ m m',
    ofDoc (rawTyped " Dash+ANTI--pro") = .ok m ∧ ofDoc (rawTyped "both_dash") = .ok m' ∧
      Blend.MentionsFirst " Dash+ANTI--pro" m.motionType ∧
      1 ≤ countReversals ⟨some m, none⟩ [] ∧
      countReversals ⟨none, some m'⟩ [Beat.empty 1] = 2 := by
  obtain ⟨m, hm⟩ := exists_of_isSome (x := ofDoc (rawTyped " Dash+ANTI--pro")) (by decide +kernel)
  obtain ⟨m', hm'⟩ := exists_of_isSome (x := ofDoc (rawTyped "both_dash")) (by decide +kernel)
  obtain ⟨-, hrecord, -⟩ := reversals_of_rawType " Dash+ANTI--pro"
  obtain ⟨-, hrecord', -⟩ := reversals_of_rawType "both_dash"
  obtain ⟨-, -, hpair, -⟩ := hrecord _ m (givesType_rawTyped _) hm
  obtain ⟨-, hboth, -⟩ := hrecord' _ m' (givesType_rawTyped _) hm'
  have hpair := hpair (mt Blend.mem_words_iff.mpr (by decide +kernel))
    (Blend.mem_words_iff.mp (by decide +kernel)) (Blend.mem_words_iff.mp (by decide +kernel))
  refine ⟨m, m', hm, hm', hpair.1, ?_, ?_⟩
  · exact hpair.2 { Pictograph.empty with motions := ⟨some m, none⟩ } .blue [] rfl
  · exact hboth (Blend.mem_words_iff.mp (by decide +kernel))
      { Pictograph.empty with motions := ⟨none, some m'⟩ } .red _ rfl

end Motion

end KineticAlphabet
