import KineticAlphabet.Generation.Pick
import KineticAlphabet.Proofs.Grammar
/-!
What may follow a state. The catalog of a grid holds every pair of options of two points of the
grid, each with the letter that it spells. So from any two points there is a pictograph of every
letter type, and one that leads to any two points of the same grid.
-/
namespace KineticAlphabet

/-- What a letter is written as is found in the alphabet. -/
theorem Letter.ofText?_text (l : Letter) : ofText? l.text = some l := by
  cases l <;> decide +kernel

theorem LetterType.ofText_text (l : Letter) : LetterType.ofText l.text = l.letterType := by
  rw [ofText, Letter.ofText?_text]
  rfl

theorem Pictograph.letterText_eq {p : Pictograph} {l : Letter} (h : p.letter = some l.text) :
    p.letterText = l.text := by
  rw [letterText, h]
  rfl

theorem Pictograph.letterType_eq {p : Pictograph} {l : Letter} (h : p.letter = some l.text) :
    p.letterType = l.letterType := by
  rw [letterType, letterText_eq h, LetterType.ofText_text]

theorem Location.stepsTo_even {a b : Location} (h : a.grid = b.grid) : a.stepsTo b % 2 = 0 := by
  have hplaces := grid_eq_iff.mp h
  have hsteps := stepsTo_eq a b
  omega

namespace Motion

theorem startLocation_of_mem_options {l : Location} {m : Motion} (h : m ∈ options l) :
    m.startLocation = l := by
  simp only [options, List.mem_cons, List.not_mem_nil, or_false] at h
  rcases h with rfl | rfl | rfl | rfl | rfl | rfl <;> rfl

theorem travelsWell_of_mem_options : ∀ {l : Location} {m : Motion}, m ∈ options l →
    m.travelsWell = true := by
  intro l
  cases l <;> decide

theorem grid_endLocation_of_mem_options : ∀ {l : Location} {m : Motion}, m ∈ options l →
    m.endLocation.grid = l.grid := by
  intro l
  cases l <;> decide

/-- From every location each way of travel is an option. -/
theorem exists_mem_options_travel (l : Location) (t : Travel) :
    ∃ m ∈ options l, m.travel = t := by
  cases t with
  | shift => exact ⟨.shift .pro l (l.shiftTarget .cw) .inward, by simp [options], rfl⟩
  | dash => exact ⟨.dashFrom l .inward, by simp [options], rfl⟩
  | static => exact ⟨.staticAt l .inward, by simp [options], rfl⟩

/-- From every location some option leads to any location of the same grid. -/
theorem exists_mem_options_endLocation : ∀ {a b : Location}, a.grid = b.grid →
    ∃ m ∈ options a, m.endLocation = b := by
  intro a b
  cases a <;> cases b <;> decide

end Motion

namespace Catalog

theorem mem_pairs {α : Type} {as bs : List α} {d : Duo α} :
    d ∈ pairs as bs ↔ d.blue ∈ as ∧ d.red ∈ bs := by
  simp only [pairs, List.mem_flatMap, List.mem_map]
  constructor
  · rintro ⟨a, ha, b, hb, rfl⟩
    exact ⟨ha, hb⟩
  · rintro ⟨ha, hb⟩
    exact ⟨d.blue, ha, d.red, hb, rfl⟩

/-- What the catalog of a grid holds: options of two of its points with the letter they spell. -/
theorem mem_spelled_iff {g : Grid} {ms : Duo Motion} {l : Letter} :
    (ms, l) ∈ spelled g ↔ (∀ a, (ms.get a).startLocation.grid = g ∧
      ms.get a ∈ Motion.options (ms.get a).startLocation) ∧ Letter.ofMotions? ms = some l := by
  simp only [spelled, List.mem_flatMap, mem_pairs, List.mem_filterMap, Option.map_eq_some_iff,
    Prod.mk.injEq]
  constructor
  · rintro ⟨hands, ⟨hb, hr⟩, ms, ⟨hmb, hmr⟩, l, hl, rfl, rfl⟩
    have hsb := Motion.startLocation_of_mem_options hmb
    have hsr := Motion.startLocation_of_mem_options hmr
    refine ⟨?_, hl⟩
    intro a
    cases a with
    | blue => exact ⟨by rw [← g.mem_points_iff]; exact hsb ▸ hb, hsb ▸ hmb⟩
    | red => exact ⟨by rw [← g.mem_points_iff]; exact hsr ▸ hr, hsr ▸ hmr⟩
  · rintro ⟨hm, hl⟩
    exact ⟨ms.map Motion.startLocation,
      ⟨(g.mem_points_iff _).mpr (hm .blue).1, (g.mem_points_iff _).mpr (hm .red).1⟩,
      ms, ⟨(hm .blue).2, (hm .red).2⟩, l, hl, rfl, rfl⟩

theorem entries_eq_build (g : Grid) : entries g = build g := by cases g <;> rfl

/-- The catalog numbered from its front. In this form it can be evaluated without appending. -/
theorem build_eq_map_zipIdx (g : Grid) :
    build g = (spelled g).zipIdx.map fun x => entry g x.2 x.1.1 x.1.2 :=
  List.mapIdx_eq_zipIdx_map

theorem mem_entries_iff {g : Grid} {p : Pictograph} :
    p ∈ entries g ↔ ∃ i ms l, (spelled g)[i]? = some (ms, l) ∧ entry g i ms l = p := by
  rw [entries_eq_build, build, List.mem_iff_getElem?]
  simp only [List.getElem?_mapIdx, Option.map_eq_some_iff]
  constructor
  · rintro ⟨i, ⟨ms, l⟩, hi, he⟩
    exact ⟨i, ms, l, hi, he⟩
  · rintro ⟨i, ms, l, hi, he⟩
    exact ⟨i, ⟨ms, l⟩, hi, he⟩

/-- What the catalog of a grid offers to hands: options of both that spell a letter. -/
structure Offers (g : Grid) (hands : Duo Location) (ms : Duo Motion) (l : Letter) : Prop where
  onGrid : ∀ a, (hands.get a).grid = g
  options : ∀ a, ms.get a ∈ Motion.options (hands.get a)
  spells : Letter.ofMotions? ms = some l

variable {g : Grid} {hands : Duo Location} {ms : Duo Motion} {l : Letter} {p : Pictograph}

namespace Offers

theorem startLocations (h : Offers g hands ms l) : ms.map Motion.startLocation = hands :=
  Duo.ext (Motion.startLocation_of_mem_options (h.options .blue))
    (Motion.startLocation_of_mem_options (h.options .red))

theorem grid_endLocation (h : Offers g hands ms l) (a : Actor) :
    (ms.get a).endLocation.grid = g :=
  (Motion.grid_endLocation_of_mem_options (h.options a)).trans (h.onGrid a)

/-- Whatever is offered stands in the catalog. -/
theorem exists_mem (h : Offers g hands ms l) : ∃ p ∈ startingAt g hands,
    p.motions = ms.map some ∧ p.letter = some l.text := by
  have hs := h.startLocations
  have hm : (ms, l) ∈ spelled g := by
    refine mem_spelled_iff.mpr ⟨fun a => ?_, h.spells⟩
    have ha : (ms.get a).startLocation = hands.get a := by rw [← hs, Duo.get_map]
    rw [ha]
    exact ⟨h.onGrid a, h.options a⟩
  obtain ⟨i, hi⟩ := List.mem_iff_getElem?.mp hm
  refine ⟨entry g i ms l, ?_, rfl, rfl⟩
  have hp : (entry g i ms l).motions.startHands? = some hands := congrArg some hs
  exact List.mem_filter.mpr ⟨mem_entries_iff.mpr ⟨i, ms, l, hi, rfl⟩, by simpa using hp⟩

end Offers

/-- Whatever stands in the catalog is offered. -/
theorem exists_offers_of_mem (h : p ∈ startingAt g hands) :
    ∃ ms l, p.motions = ms.map some ∧ p.letter = some l.text ∧ Offers g hands ms l := by
  obtain ⟨hp, hs⟩ := List.mem_filter.mp h
  obtain ⟨i, ms, l, hi, rfl⟩ := mem_entries_iff.mp hp
  obtain ⟨hm, hl⟩ := mem_spelled_iff.mp (List.mem_of_getElem? hi)
  have hs' : ms.map Motion.startLocation = hands := Option.some.inj (of_decide_eq_true hs)
  refine ⟨ms, l, rfl, rfl, ?_⟩
  rw [← hs']
  exact ⟨fun a => by rw [Duo.get_map]; exact (hm a).1, fun a => by rw [Duo.get_map]; exact (hm a).2,
    hl⟩

/-- Options of two points of a grid are offered. -/
theorem exists_offers (hg : ∀ a, (hands.get a).grid = g)
    (hm : ∀ a, ms.get a ∈ Motion.options (hands.get a)) : ∃ l, Offers g hands ms l := by
  have hb := Motion.startLocation_of_mem_options (hm .blue)
  have hr := Motion.startLocation_of_mem_options (hm .red)
  have hl : ∃ l, Letter.ofMotions? ms = some l := by
    apply Letter.exists_ofMotions?
    · have hwb := Motion.travelsWell_of_mem_options (hm .blue)
      have hwr := Motion.travelsWell_of_mem_options (hm .red)
      simpa [Duo.all] using And.intro hwb hwr
    · apply Location.stepsTo_even
      have hbg := hg .blue
      have hrg := hg .red
      rw [← hb] at hbg
      rw [← hr] at hrg
      exact hbg.trans hrg.symm
  obtain ⟨l, hl⟩ := hl
  exact ⟨l, hg, hm, hl⟩

/-- From any two points of a grid there is a pictograph of every letter type. -/
theorem exists_offers_letterType (hg : ∀ a, (hands.get a).grid = g) (t : LetterType) :
    ∃ ms l, Offers g hands ms l ∧ l.letterType = t := by
  have ht : ∃ ways, Letter.typeOfTravels ways = t := by
    cases t
    · exact ⟨⟨.shift, .shift⟩, rfl⟩
    · exact ⟨⟨.shift, .static⟩, rfl⟩
    · exact ⟨⟨.shift, .dash⟩, rfl⟩
    · exact ⟨⟨.dash, .static⟩, rfl⟩
    · exact ⟨⟨.dash, .dash⟩, rfl⟩
    · exact ⟨⟨.static, .static⟩, rfl⟩
  obtain ⟨⟨wb, wr⟩, rfl⟩ := ht
  obtain ⟨b, hb, rfl⟩ := Motion.exists_mem_options_travel hands.blue wb
  obtain ⟨r, hr, rfl⟩ := Motion.exists_mem_options_travel hands.red wr
  obtain ⟨l, hl⟩ := @exists_offers g hands ⟨b, r⟩ hg (Actor.forall_iff.mpr ⟨hb, hr⟩)
  exact ⟨_, l, hl, Letter.letterType_of_ofMotions? hl.spells⟩

/-- From any two points of a grid there is a pictograph that leads to any two points of it. -/
theorem exists_offers_endLocation (hg : ∀ a, (hands.get a).grid = g) {goal : Duo Location}
    (hgoal : ∀ a, (goal.get a).grid = g) :
    ∃ ms l, Offers g hands ms l ∧ ms.map Motion.endLocation = goal := by
  have hgrid : ∀ a, (hands.get a).grid = (goal.get a).grid := fun a => (hg a).trans (hgoal a).symm
  obtain ⟨b, hb, heb⟩ := Motion.exists_mem_options_endLocation (hgrid .blue)
  obtain ⟨r, hr, her⟩ := Motion.exists_mem_options_endLocation (hgrid .red)
  obtain ⟨l, hl⟩ := @exists_offers g hands ⟨b, r⟩ hg (Actor.forall_iff.mpr ⟨hb, hr⟩)
  exact ⟨_, l, hl, Duo.ext heb her⟩

end Catalog

namespace Generation

/-- What a pictograph has to be for a pick: the catalog offers it to the hands, its letter may be
drawn, and it ends at the goal if there is one. -/
structure Candidate (c : Config) (hands : Duo Location) (goal : Option (Duo Location))
    (ms : Duo Motion) (l : Letter) : Prop extends Catalog.Offers c.grid hands ms l where
  allowed : l.text ∉ c.excludedLetters
  typed : c.mode = .freeform → l.letterType ∈ c.letterTypes
  reaches : ∀ g, goal = some g → ms.map Motion.endLocation = g

variable {c : Config} {state : Duo Stance} {goal : Option (Duo Location)} {ms : Duo Motion}
  {l : Letter} {p : Pictograph}

theorem isAllowed_iff (h : p.letter = some l.text) : isAllowed c p = true ↔
    l.text ∉ c.excludedLetters ∧ (c.mode = .freeform → l.letterType ∈ c.letterTypes) := by
  rw [isAllowed, Pictograph.letterText_eq h, Pictograph.letterType_eq h]
  cases hm : c.mode <;> simp [isExcluded]

theorem reaches_iff (h : p.motions = ms.map some) :
    (goal.isNone || p.motions.endHands? = goal) = true ↔
      ∀ g, goal = some g → ms.map Motion.endLocation = g := by
  have he : p.motions.endHands? = some (ms.map Motion.endLocation) := by rw [h]; rfl
  rw [he]
  cases goal <;> simp

/-- Every pictograph that may follow a state is a candidate. -/
theorem exists_candidate_of_mem (h : p ∈ candidates c state goal) :
    ∃ ms l, p.motions = ms.map some ∧ Candidate c state.locations goal ms l := by
  obtain ⟨hp, h⟩ := List.mem_filter.mp h
  obtain ⟨ms, l, hm, hl, ho⟩ := Catalog.exists_offers_of_mem hp
  obtain ⟨ha, hr⟩ := Bool.and_eq_true_iff.mp h
  obtain ⟨hx, ht⟩ := (isAllowed_iff hl).mp ha
  exact ⟨ms, l, hm, ho, hx, ht, (reaches_iff hm).mp hr⟩

namespace Candidate

/-- Every candidate is among the pictographs that may follow. -/
theorem exists_mem (h : Candidate c state.locations goal ms l) :
    ∃ p ∈ candidates c state goal, p.motions = ms.map some := by
  obtain ⟨p, hp, hm, hl⟩ := h.toOffers.exists_mem
  refine ⟨p, List.mem_filter.mpr ⟨hp, Bool.and_eq_true_iff.mpr ⟨?_, ?_⟩⟩, hm⟩
  · exact (isAllowed_iff hl).mpr ⟨h.allowed, h.typed⟩
  · exact (reaches_iff hm).mpr h.reaches

/-- What may be drawn on the way to a goal may be drawn without one. -/
theorem withoutGoal {hands : Duo Location} (h : Candidate c hands goal ms l) :
    Candidate c hands none ms l :=
  { h with reaches := nofun }

end Candidate

end Generation

end KineticAlphabet
