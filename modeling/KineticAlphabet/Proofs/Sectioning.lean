import KineticAlphabet.Proofs.Grouping
import KineticAlphabet.Proofs.Sorting
/-!
Sections of a selection. The letter types and the groups of start positions each part all
pictographs, so sections lose nothing, and because the sort is stable each of them is sorted as it
would be alone. Where the sections stand in the order of the sort, they make up the sorted selection
when they are read in a row: the alphabet goes through the letter types, and labels compare as the
names of their groups do.
-/
namespace KineticAlphabet

section

variable {α : Type} {tests : List (α → Bool)} {t : α → Bool} {s : List α} {a : α}

/-- Exactly one of some tests is passed. -/
def PassesOne (tests : List (α → Bool)) (a : α) : Prop := tests.countP (fun t => t a) = 1

theorem PassesOne.tail (h : PassesOne (t :: tests) a) (ht : t a = false) : PassesOne tests a := by
  simpa [PassesOne, List.countP_cons, ht] using h

theorem PassesOne.tail_eq_false (h : PassesOne (t :: tests) a) (ht : t a = true) :
    ∀ u ∈ tests, u a = false := by
  have hnone : tests.countP (fun t => t a) = 0 := by
    simpa only [PassesOne, List.countP_cons, ht, if_true, Nat.add_eq_right] using h
  intro u hu
  simpa using List.countP_eq_zero.mp hnone u hu

/-- After the elements of the first test the others only take from what is left. -/
theorem flatMap_filter_cons (h : ∀ a ∈ s, PassesOne (t :: tests) a) :
    (t :: tests).flatMap (fun u => s.filter u) =
      s.filter t ++ tests.flatMap fun u => (s.filter fun a => !t a).filter u := by
  have hrest : ∀ u ∈ tests, s.filter u = (s.filter fun a => !t a).filter u := by
    intro u hu
    rw [List.filter_filter]
    refine List.filter_congr fun a ha => ?_
    cases ht : t a with
    | true => simp [(h a ha).tail_eq_false ht u hu]
    | false => simp
  rw [List.flatMap_cons, List.flatMap_def, List.map_congr_left hrest, ← List.flatMap_def]

/-- What remains for the other tests passes one of them. -/
theorem passesOne_rest (h : ∀ a ∈ s, PassesOne (t :: tests) a) :
    ∀ a ∈ s.filter (fun a => !t a), PassesOne tests a := by
  intro a ha
  rw [List.mem_filter, Bool.not_eq_true'] at ha
  exact (h a ha.1).tail ha.2

/-- The parts of a list by tests hold all its elements, each as often as the list. -/
theorem perm_flatMap_filter (h : ∀ a ∈ s, PassesOne tests a) :
    (tests.flatMap fun t => s.filter t).Perm s := by
  induction tests generalizing s with
  | nil =>
    have hs : s = [] := List.eq_nil_iff_forall_not_mem.mpr fun a ha => by cases h a ha
    rw [hs]
    exact .nil
  | cons t tests ih =>
    rw [flatMap_filter_cons h]
    exact ((ih (passesOne_rest h)).append_left _).trans (List.filter_append_perm t s)

/-- If the elements stand in the order of the tests, the parts in a row are the list. -/
theorem flatMap_filter_eq_self (h : ∀ a ∈ s, PassesOne tests a)
    (hs : s.Pairwise fun a b => tests.Pairwise fun t u => ¬ (u a = true ∧ t b = true)) :
    (tests.flatMap fun t => s.filter t) = s := by
  induction tests generalizing s with
  | nil => exact (List.eq_nil_iff_forall_not_mem.mpr fun a ha => by cases h a ha).symm
  | cons t tests ih =>
    have hfront : s.Pairwise fun a b => t b = true → t a = true := by
      refine hs.imp_of_mem fun {a b} ha _ hab hb => ?_
      cases hta : t a with
      | true => rfl
      | false =>
        -- the test that the first element passes would stand behind that of the second
        have hone : tests.countP (fun u => u a) = 1 := (h a ha).tail hta
        obtain ⟨u, hu, hua⟩ := List.countP_pos_iff.mp (Nat.lt_of_lt_of_eq Nat.zero_lt_one hone.symm)
        exact absurd ⟨hua, hb⟩ ((List.pairwise_cons.mp hab).1 u hu)
    have hrest : (s.filter fun a => !t a).Pairwise fun a b =>
        tests.Pairwise fun t u => ¬ (u a = true ∧ t b = true) :=
      (hs.filter _).imp fun hab => (List.pairwise_cons.mp hab).2
    rw [flatMap_filter_cons h, ih (passesOne_rest h) hrest, filter_append_filter_not hfront]

end

/-- The alphabet goes through the letter types one after another. -/
theorem Letter.number_le_of_order_le {l l' : Letter} (h : l.order ≤ l'.order) :
    l.letterType.number ≤ l'.letterType.number := by
  have hsorted : all.Pairwise fun l l' => l.letterType.number ≤ l'.letterType.number := by decide
  have hlt : ∀ l : Letter, l.order < all.length := fun l => List.idxOf_lt_length_iff.mpr l.mem_all
  have hget : ∀ l : Letter, all.get ⟨l.order, hlt l⟩ = l := fun l => List.getElem_idxOf (hlt l)
  rcases Nat.lt_or_eq_of_le h with hbefore | hsame
  · have hnumber := List.pairwise_iff_getElem.mp hsorted _ _ (hlt l) (hlt l') hbefore
    simp only [List.get_eq_getElem] at hget
    rwa [hget l, hget l'] at hnumber
  · have hl := hget l
    simp only [hsame] at hl
    have heq : l = l' := hl.symm.trans (hget l')
    exact Nat.le_of_eq (congrArg (fun l => l.letterType.number) heq)

namespace PositionGroup

/-- The group of a label is that of the hands. -/
theorem ofLabel?_label? (hands : Duo Location) :
    (Position.label? hands).bind ofLabel? = ofHands? hands := by
  rcases hands with ⟨blue, red⟩
  cases blue <;> cases red <;> decide +kernel

/-- Labels compare as the names of their groups do, whatever stands behind these. -/
theorem compare_append {g g' : PositionGroup} (h : compare g.name g'.name = .lt) (x y : String) :
    compare (g.name ++ x) (g'.name ++ y) = .lt := by
  have hlt : g.name ++ x < g'.name ++ y := by
    rw [String.lt_iff, String.toList_append, String.toList_append]
    -- the first letters of the names decide
    cases g <;> cases g' <;> first
      | exact absurd h (by decide)
      | exact List.Lex.rel (by decide)
  exact if_pos hlt

end PositionGroup

namespace Pictograph

/-- The label of the start position is the name of its group with a number behind it. -/
theorem exists_startLabel?_eq (p : Pictograph) :
    ∃ number : String, p.startLabel? = p.startGroup?.map fun g => g.name ++ number := by
  unfold startGroup? startLabel?
  cases hh : p.motions.startHands? with
  | none => exact ⟨"", rfl⟩
  | some hands =>
    refine ⟨String.ofList (Decimal.numeral (Position.number hands)), ?_⟩
    rw [Option.bind_some, PositionGroup.ofLabel?_label?]
    rfl

/-- Labels of start positions in one order, groups of them in the same. -/
theorem compare_startLabel? {p q : Pictograph}
    (h : compare (p.startGroup?.map PositionGroup.name)
      (q.startGroup?.map PositionGroup.name) = .lt) :
    compare p.startLabel? q.startLabel? = .lt := by
  obtain ⟨x, hx⟩ := p.exists_startLabel?_eq
  obtain ⟨y, hy⟩ := q.exists_startLabel?_eq
  rw [hx, hy]
  cases hp : p.startGroup? with
  | none =>
    cases hq : q.startGroup? with
    | none =>
      rw [hp, hq] at h
      cases h
    | some g' => rfl
  | some g =>
    cases hq : q.startGroup? with
    | none =>
      rw [hp, hq] at h
      cases h
    | some g' =>
      rw [hp, hq] at h
      exact PositionGroup.compare_append h x y

def IsLettered (p : Pictograph) : Prop := (Letter.ofText? p.letterText).isSome = true

instance (p : Pictograph) : Decidable p.IsLettered :=
  inferInstanceAs (Decidable ((Letter.ofText? p.letterText).isSome = true))

end Pictograph

namespace Selection

variable {context : List Beat} {ps : List Pictograph}

def typeTests : List (Pictograph → Bool) :=
  typeGroups.map fun (_, _, types) p => types.contains p.letterType

def startTests : List (Pictograph → Bool) := startGroups.map fun g p => p.startGroup? = g

theorem passesOne_typeTests (p : Pictograph) : PassesOne typeTests p := by
  have hone : ∀ t : LetterType,
      typeGroups.countP (fun (_, _, types) => types.contains t) = 1 := by
    intro t
    cases t <;> decide
  rw [PassesOne, typeTests, List.countP_map]
  exact hone p.letterType

theorem passesOne_startTests (p : Pictograph) : PassesOne startTests p := by
  have hone : ∀ g : Option PositionGroup, startGroups.countP (fun g' => g = g') = 1 := by
    rintro (_ | _ | _ | _) <;> decide
  rw [PassesOne, startTests, List.countP_map]
  exact hone p.startGroup?

theorem flatMap_sectionsByType (ps : List Pictograph) :
    (sectionsByType ps).flatMap Section.pictographs = typeTests.flatMap fun t => ps.filter t := by
  rw [sectionsByType_eq, typeTests, List.flatMap_map, List.flatMap_map]
  rfl

/-- The sections that are left out would be empty. -/
theorem flatMap_sectionsByStart (ps : List Pictograph) :
    (sectionsByStart ps).flatMap Section.pictographs = startTests.flatMap fun t => ps.filter t := by
  have hfull : ∀ ss : List Section,
      (ss.filter fun s => !s.pictographs.isEmpty).flatMap Section.pictographs =
        ss.flatMap Section.pictographs := by
    intro ss
    have hparts := List.flatten_filter_not_isEmpty (L := ss.map Section.pictographs)
    rwa [List.filter_map, ← List.flatMap_def, ← List.flatMap_def] at hparts
  rw [sectionsByStart_eq, hfull, startTests, List.flatMap_map, List.flatMap_map]

/-- Letters of the alphabet that are sorted stand in the order of the sections. -/
theorem pairwise_typeTests (h : ∀ p ∈ ps, p.IsLettered) :
    (sort context ps .type).Pairwise fun a b =>
      typeTests.Pairwise fun t u => ¬ (u a = true ∧ t b = true) := by
  have hgroups : ∀ t t' : LetterType, t.number ≤ t'.number → typeGroups.Pairwise fun g g' =>
      ¬ (g'.2.2.contains t = true ∧ g.2.2.contains t' = true) := by
    intro t t'
    cases t <;> cases t' <;> decide
  refine (pairwise_sort context .type ps).imp_of_mem fun {a b} ha hb hab => ?_
  obtain ⟨l, hl⟩ := Option.isSome_iff_exists.mp (h a ((sort_perm context .type ps).mem_iff.mp ha))
  obtain ⟨l', hl'⟩ := Option.isSome_iff_exists.mp (h b ((sort_perm context .type ps).mem_iff.mp hb))
  have horder : l.order ≤ l'.order := by
    have hletters : (compareLetters a b).isLE = true := hab
    simp only [compareLetters, hl, hl'] at hletters
    exact Nat.isLE_compare.mp hletters
  have hnumber := Letter.number_le_of_order_le horder
  rw [typeTests, List.pairwise_map]
  have htype : a.letterType = l.letterType ∧ b.letterType = l'.letterType := by
    simp [Pictograph.letterType, LetterType.ofText, hl, hl']
  rw [← htype.1, ← htype.2] at hnumber
  exact hgroups _ _ hnumber

/-- Sorted start positions stand in the order of the sections. -/
theorem pairwise_startTests : (sort context ps .startPosition).Pairwise fun a b =>
    startTests.Pairwise fun t u => ¬ (u a = true ∧ t b = true) := by
  have hgroups : startGroups.Pairwise fun g g' =>
      compare (g.map PositionGroup.name) (g'.map PositionGroup.name) = .lt := by decide
  refine (pairwise_sort context .startPosition ps).imp fun {a b} hab => ?_
  rw [startTests, List.pairwise_map]
  refine hgroups.imp fun {g g'} hlt hgroup => ?_
  rw [decide_eq_true_eq, decide_eq_true_eq] at hgroup
  have hba : compare b.startLabel? a.startLabel? = .lt := by
    apply Pictograph.compare_startLabel?
    rw [hgroup.1, hgroup.2]
    exact hlt
  have hgt : compare a.startLabel? b.startLabel? = .gt := Std.OrientedCmp.gt_of_lt hba
  rw [before, comparePrimary, compareLabels, hgt] at hab
  cases hab

theorem organize_of_ne {method : SortMethod} (h : method ≠ .startPosition) :
    organize context ps method = sectionsByType (sort context ps method) := by
  cases method with
  | startPosition => exact absurd rfl h
  | type | endPosition | reversals => rfl

/-- The sections together hold the pictographs of the selection. -/
theorem perm_organize (context : List Beat) (ps : List Pictograph) (method : SortMethod) :
    ((organize context ps method).flatMap Section.pictographs).Perm ps := by
  refine List.Perm.trans ?_ (sort_perm context method ps)
  by_cases h : method = .startPosition
  · rw [h, organize, flatMap_sectionsByStart]
    exact perm_flatMap_filter fun p _ => passesOne_startTests p
  · rw [organize_of_ne h, flatMap_sectionsByType]
    exact perm_flatMap_filter fun p _ => passesOne_typeTests p

/-- A section by letter type is the sorted part of the selection with these types. -/
theorem sectionsByType_sort (method : SortMethod) : sectionsByType (sort context ps method) =
    typeGroups.map fun (name, kind, types) =>
      ⟨name, kind, types, sort context (ofTypes types ps) method⟩ := by
  simp only [sectionsByType_eq, ofTypes, filter_sort]

/-- There is a section for each start group that occurs, with the sorted part of the selection that
starts there. -/
theorem sectionsByStart_sort (method : SortMethod) : sectionsByStart (sort context ps method) =
    (startGroups.filter fun g => ps.any fun p => p.startGroup? = g).map fun g =>
      ⟨startName g, .plain, [], sort context (ps.filter fun p => p.startGroup? = g) method⟩ := by
  rw [sectionsByStart_eq, List.filter_map]
  simp only [filter_sort]
  congr 1
  refine List.filter_congr fun g _ => ?_
  have hempty := (sort_perm context method (ps.filter fun p => p.startGroup? = g)).isEmpty_eq
  rw [Function.comp_apply, hempty, Bool.eq_iff_iff]
  simp

theorem ne_nil_of_mem_sectionsByStart {s : Section} (h : s ∈ sectionsByStart ps) :
    s.pictographs ≠ [] := by
  rw [sectionsByStart_eq] at h
  have hfull := (List.mem_filter.mp h).2
  simpa using hfull

/-- Sections, filters and sorts agree. No section loses or doubles a pictograph. There are always
four sections by letter type, each of which is what the filter of its types leaves, sorted. Those by
start position are the groups that occur, in order, and in a row they make up the sorted selection;
so do the sections of letters of the alphabet that are sorted by type. Every filter goes with every
sort. -/
theorem organize_agrees (context : List Beat) (ps : List Pictograph) :
    (∀ method, ((organize context ps method).flatMap Section.pictographs).Perm ps) ∧
    (∀ method, method ≠ .startPosition → organize context ps method =
      [ ⟨"Type1", .plain, [.type1], sort context (ofTypes [.type1] ps) method⟩,
        ⟨"Type2", .plain, [.type2], sort context (ofTypes [.type2] ps) method⟩,
        ⟨"Type3", .plain, [.type3], sort context (ofTypes [.type3] ps) method⟩,
        ⟨"Types4-6", .grouped, [.type4, .type5, .type6],
          sort context (ofTypes [.type4, .type5, .type6] ps) method⟩ ]) ∧
    (organize context ps .startPosition =
      ([none, some .alpha, some .beta, some .gamma].filter fun g =>
        ps.any fun p => p.startGroup? = g).map fun g =>
          ⟨(g.map PositionGroup.name).getD "unpositioned", .plain, [],
            sort context (ps.filter fun p => p.startGroup? = g) .startPosition⟩) ∧
    (∀ s ∈ organize context ps .startPosition, s.pictographs ≠ []) ∧
    (organize context ps .startPosition).flatMap Section.pictographs =
      sort context ps .startPosition ∧
    ((∀ p ∈ ps, p.IsLettered) →
      (organize context ps .type).flatMap Section.pictographs = sort context ps .type) ∧
    ∀ method,
      (∀ types, ofTypes types (sort context ps method) = sort context (ofTypes types ps) method) ∧
      (∀ groups, endingIn groups (sort context ps method) =
        sort context (endingIn groups ps) method) ∧
      ∀ buckets, inBuckets context buckets (sort context ps method) =
        sort context (inBuckets context buckets ps) method := by
  refine ⟨perm_organize context ps, fun method h => ?_, ?_, ?_, ?_, fun h => ?_, fun method => ?_⟩
  · rw [organize_of_ne h, sectionsByType_sort]
    rfl
  · exact sectionsByStart_sort .startPosition
  · intro s hs
    exact ne_nil_of_mem_sectionsByStart hs
  · rw [organize, flatMap_sectionsByStart]
    exact flatMap_filter_eq_self (fun p _ => passesOne_startTests p) pairwise_startTests
  · rw [organize_of_ne (by decide), flatMap_sectionsByType]
    exact flatMap_filter_eq_self (fun p _ => passesOne_typeTests p) (pairwise_typeTests h)
  · refine ⟨fun _ => filter_sort _ _ _ _, fun _ => filter_sort _ _ _ _, fun buckets => ?_⟩
    rw [inBuckets_eq, inBuckets_eq]
    exact filter_sort _ _ _ _

/-- Three pictographs that only have letters, of three types and against the alphabet. -/
def lettersOnly : List Pictograph :=
  ["Γ", "W-", "A"].map fun text => { Pictograph.empty with letter := some text }

/-- The sections by type bring them into the order of the alphabet, as the sort does. Sorted by
their reversals they fall into the same four sections. -/
theorem organize_agrees_lettersOnly : (∀ p ∈ lettersOnly, p.IsLettered) ∧
    SortMethod.reversals ≠ .startPosition ∧
    (organize [] lettersOnly .type).flatMap Section.pictographs = sort [] lettersOnly .type ∧
    (organize [] lettersOnly .reversals).map Section.name =
      ["Type1", "Type2", "Type3", "Types4-6"] := by
  have hlettered : ∀ p ∈ lettersOnly, p.IsLettered := by decide +kernel
  have hmethod : SortMethod.reversals ≠ .startPosition := by decide
  obtain ⟨-, hsections, -, -, -, hrow, -⟩ := organize_agrees [] lettersOnly
  refine ⟨hlettered, hmethod, hrow hlettered, ?_⟩
  rw [hsections .reversals hmethod]
  rfl

end Selection

end KineticAlphabet
