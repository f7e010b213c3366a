import KineticAlphabet.Selection
/-!
What grouping one by one comes to. Values that are pushed under their keys leave, in the order of
the keys, those that occur, each with its values in their order; pictographs that are pushed into
the section of their letter type leave in each section those of its types. One more value only
changes the group of its key, so it is enough to look at a single push.
-/
namespace KineticAlphabet

namespace Groups

variable {κ ν : Type} [DecidableEq κ] {keys : List κ} {key : ν → κ} {k : κ} {a : ν} {s t : List ν}

def part (key : ν → κ) (s : List ν) (k : κ) : List ν := s.filter fun a => key a = k

theorem part_append_self (s : List ν) (a : ν) :
    part key (s ++ [a]) (key a) = part key s (key a) ++ [a] := by
  simp [part]

theorem part_append_of_ne (h : key a ≠ k) : part key (s ++ [a]) k = part key s k := by
  simp [part, h]

/-- The groups of a list, for those of some keys that occur. -/
def ofList (keys : List κ) (key : ν → κ) (s : List ν) : Groups κ ν :=
  (keys.map fun k => (k, part key s k)).filter fun g => !g.2.isEmpty

theorem ofList_nil (keys : List κ) (key : ν → κ) : ofList keys key [] = [] := by
  simp [ofList, part]

theorem ofList_congr (h : ∀ k ∈ keys, part key s k = part key t k) :
    ofList keys key s = ofList keys key t := by
  rw [ofList, ofList, List.map_congr_left fun k hk => congrArg (Prod.mk k) (h k hk)]

theorem ofList_cons_of_nil (h : part key s k = []) :
    ofList (k :: keys) key s = ofList keys key s := by
  simp [ofList, h]

theorem ofList_cons_of_ne_nil (h : part key s k ≠ []) :
    ofList (k :: keys) key s = (k, part key s k) :: ofList keys key s := by
  simp [ofList, h]

variable [Ord κ]

omit [DecidableEq κ] in
/-- A key below all others comes first. -/
theorem push_of_lt {groups : Groups κ ν} (h : ∀ g ∈ groups, compare k g.1 = .lt) :
    push k a groups = (k, [a]) :: groups := by
  cases groups with
  | nil => rfl
  | cons g groups => simp [push, h g List.mem_cons_self]

variable [Std.LawfulEqOrd κ]

/-- A value whose key is the first of all is put behind those that have it, or in front. -/
theorem push_ofList_self (hfirst : ∀ k ∈ keys, compare (key a) k = .lt) :
    push (key a) a (ofList (key a :: keys) key s) = ofList (key a :: keys) key (s ++ [a]) := by
  have hself : part key (s ++ [a]) (key a) = part key s (key a) ++ [a] := part_append_self s a
  have hrest : ofList keys key (s ++ [a]) = ofList keys key s := by
    refine ofList_congr fun k hk => part_append_of_ne ?_
    rintro rfl
    exact absurd (hfirst _ hk) (by simp)
  rw [ofList_cons_of_ne_nil (s := s ++ [a]) (by simp [hself]), hself, hrest]
  by_cases hs : part key s (key a) = []
  · have hbelow : ∀ g ∈ ofList keys key s, compare (key a) g.1 = .lt := by
      intro g hg
      obtain ⟨k, hk, rfl⟩ := List.mem_map.mp (List.mem_filter.mp hg).1
      exact hfirst k hk
    rw [ofList_cons_of_nil hs, push_of_lt hbelow, hs, List.nil_append]
  · rw [ofList_cons_of_ne_nil hs]
    simp [push]

variable [Std.OrientedOrd κ]

/-- One more value is pushed to where it belongs. -/
theorem push_ofList (hkeys : keys.Pairwise fun k k' => compare k k' = .lt) (h : key a ∈ keys) :
    push (key a) a (ofList keys key s) = ofList keys key (s ++ [a]) := by
  induction keys with
  | nil => cases h
  | cons k keys ih =>
    obtain ⟨hfirst, hrest⟩ := List.pairwise_cons.mp hkeys
    by_cases hk : key a = k
    · subst hk
      exact push_ofList_self hfirst
    · have hmem : key a ∈ keys := (List.mem_cons.mp h).resolve_left hk
      have hafter : compare (key a) k = .gt := Std.OrientedCmp.gt_of_lt (hfirst _ hmem)
      have hsame : part key (s ++ [a]) k = part key s k := part_append_of_ne hk
      by_cases hs : part key s k = []
      · rw [ofList_cons_of_nil hs, ofList_cons_of_nil (hsame.trans hs), ih hrest hmem]
      · rw [ofList_cons_of_ne_nil hs, ofList_cons_of_ne_nil (hsame ▸ hs), hsame, ← ih hrest hmem]
        simp [push, hafter]

/-- All values of a list are pushed to where they belong. -/
theorem foldl_push (hkeys : keys.Pairwise fun k k' => compare k k' = .lt)
    (h : ∀ a ∈ s, key a ∈ keys) :
    s.foldl (fun groups a => push (key a) a groups) (ofList keys key t) =
      ofList keys key (t ++ s) := by
  induction s generalizing t with
  | nil => rw [List.append_nil]; rfl
  | cons a s ih =>
    rw [List.foldl_cons, push_ofList hkeys (h a List.mem_cons_self),
      ih fun b hb => h b (List.mem_cons_of_mem a hb), List.append_cons t a s]

end Groups

namespace Selection

/-- Each section gets the pictographs whose letter types belong to its place. -/
theorem foldl_push_sections (ps : List Pictograph) (sections : List Section) :
    ps.foldl (fun sections p => sections.modify (sectionIndex p.letterType) (·.push p)) sections =
      sections.mapIdx fun i s =>
        { s with pictographs := s.pictographs ++
          ps.filter fun p => sectionIndex p.letterType = i } := by
  induction ps generalizing sections with
  | nil => exact List.ext_getElem? fun i => by simp
  | cons p ps ih =>
    rw [List.foldl_cons, ih]
    refine List.ext_getElem? fun i => ?_
    rw [List.getElem?_mapIdx, List.getElem?_mapIdx, List.getElem?_modify]
    by_cases hi : sectionIndex p.letterType = i
    · simp [hi, Section.push, Function.comp_def]
    · simp [hi]

/-- The groups of letter types that make the sections: the first three alone, the others merged. -/
def typeGroups : List (String × SectionKind × List LetterType) :=
  [ ("Type1", .plain, [.type1]),
    ("Type2", .plain, [.type2]),
    ("Type3", .plain, [.type3]),
    ("Types4-6", .grouped, [.type4, .type5, .type6]) ]

/-- Each section by letter type is what the filter of its types leaves. -/
theorem sectionsByType_eq (ps : List Pictograph) : sectionsByType ps =
    typeGroups.map fun (name, kind, types) => ⟨name, kind, types, ofTypes types ps⟩ := by
  have hfilter : ∀ i types, (∀ t, decide (sectionIndex t = i) = types.contains t) →
      (ps.filter fun p => sectionIndex p.letterType = i) = ofTypes types ps :=
    fun i types h => List.filter_congr fun p _ => h p.letterType
  have hfirst := hfilter 0 [.type1] fun t => by cases t <;> rfl
  have hsecond := hfilter 1 [.type2] fun t => by cases t <;> rfl
  have hthird := hfilter 2 [.type3] fun t => by cases t <;> rfl
  have hothers := hfilter 3 [.type4, .type5, .type6] fun t => by cases t <;> rfl
  rw [sectionsByType, foldl_push_sections]
  simp [emptySections, typeGroups, hfirst, hsecond, hthird, hothers, LetterType.name]

/-- The groups that a start position may have, and none first. -/
def startGroups : List (Option PositionGroup) := none :: PositionGroup.all.map some

instance : Std.OrientedOrd PositionGroup where
  eq_swap {g g'} := by cases g <;> cases g' <;> rfl

instance : Std.LawfulEqOrd PositionGroup where
  eq_of_compare {g g'} h := by cases g <;> cases g' <;> cases h <;> rfl

def startName (g : Option PositionGroup) : String := (g.map PositionGroup.name).getD "unpositioned"

/-- There is a section by start position for each group that occurs, and it is what a filter of that
group leaves. -/
theorem sectionsByStart_eq (ps : List Pictograph) : sectionsByStart ps =
    (startGroups.map fun g => (⟨startName g, .plain, [],
      ps.filter fun p => p.startGroup? = g⟩ : Section)).filter fun s => !s.pictographs.isEmpty := by
  have hkeys : startGroups.Pairwise fun g g' => compare g g' = .lt := by decide
  have hall : ∀ p ∈ ps, p.startGroup? ∈ startGroups := by
    intro p _
    generalize p.startGroup? = g
    revert g
    rintro (_ | _ | _ | _) <;> decide
  have hgroups := Groups.foldl_push (t := []) hkeys hall
  rw [Groups.ofList_nil, List.nil_append] at hgroups
  rw [sectionsByStart, hgroups, Groups.ofList, List.filter_map, List.filter_map, List.map_map]
  rfl

end Selection

end KineticAlphabet
