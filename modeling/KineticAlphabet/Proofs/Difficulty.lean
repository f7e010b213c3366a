import KineticAlphabet.Proofs.Completeness
import KineticAlphabet.Proofs.Counting
/-!
The motions that generation brings. Each stays on the grid, goes as far as its type asks, spins as
its type asks, and turns no more than the level of difficulty and the intensity allow. The motions
of the catalog are made that way, dressing keeps it because a lock is always a direction, and so
does every component of a CAP type. Orientations do not matter here.
-/
namespace KineticAlphabet

/-- How far the hand of a motion may go round the ring. -/
def MotionType.distances : MotionType → List Nat
  | .static => [0]
  | .dash => [4]
  | .pro | .anti | .float => [2, 6]

/-- In the mirror a hand goes as far the other way. -/
theorem MotionType.mem_distances_mirrored {t : MotionType} {d : Nat} (h : d ∈ t.distances) :
    (8 - d) % 8 ∈ t.distances := by
  cases t <;> simp only [distances, List.mem_cons, List.not_mem_nil, or_false] at h ⊢ <;> omega

/-- A motion on a grid that is made as its type asks. The prop of a shift spins with the hand, or
against it if the shift is anti; that of a static or a dash spins just if it turns. Only floats have
float turns. -/
structure Motion.Formed (g : Grid) (m : Motion) : Prop where
  startGrid : m.startLocation.grid = g
  endGrid : m.endLocation.grid = g
  travels : m.startLocation.stepsTo m.endLocation ∈ m.motionType.distances
  pro : m.motionType = .pro → m.spin = m.handRotation
  anti : m.motionType = .anti → m.spin = m.handRotation.reversed
  float : m.motionType = .float → m.spin = m.handRotation
  floats : m.turns = .float ↔ m.motionType = .float
  still : m.motionType ∈ [.static, .dash] → (m.spin.spins = true ↔ m.turns ≠ .zero)

instance (g : Grid) (m : Motion) : Decidable (m.Formed g) :=
  decidable_of_iff
    (m.startLocation.grid = g ∧ m.endLocation.grid = g ∧
      m.startLocation.stepsTo m.endLocation ∈ m.motionType.distances ∧
      (m.motionType = .pro → m.spin = m.handRotation) ∧
      (m.motionType = .anti → m.spin = m.handRotation.reversed) ∧
      (m.motionType = .float → m.spin = m.handRotation) ∧
      (m.turns = .float ↔ m.motionType = .float) ∧
      (m.motionType ∈ [.static, .dash] → (m.spin.spins = true ↔ m.turns ≠ .zero)))
    ⟨fun ⟨h1, h2, h3, h4, h5, h6, h7, h8⟩ => ⟨h1, h2, h3, h4, h5, h6, h7, h8⟩,
      fun ⟨h1, h2, h3, h4, h5, h6, h7, h8⟩ => ⟨h1, h2, h3, h4, h5, h6, h7, h8⟩⟩

def Config.Allows (c : Config) (turns : Turns) : Prop :=
  ∃ most, c.turnIntensity.toRat? = some most ∧ ∀ count, turns.toRat? = some count → count ≤ most

/-- A motion within the difficulty of a configuration: without turns at the first level, with whole
ones at the second, and nowhere with more than the intensity. Only the third level has floats. -/
structure Motion.Within (c : Config) (m : Motion) : Prop where
  first : c.level = 1 → m.motionType ≠ .float ∧ m.turns = .zero
  second : c.level = 2 → m.motionType ≠ .float ∧
    (∃ n : Nat, m.turns.toRat? = some (n : Rat)) ∧ c.Allows m.turns
  third : c.level = 3 → c.Allows m.turns

def Motion.Suits (c : Config) (m : Motion) : Prop := m.Formed c.grid ∧ m.Within c

namespace Motion

variable {c : Config} {g : Grid} {m m' : Motion}

theorem travelsWell_iff (m : Motion) : m.travelsWell = true ↔
    m.startLocation.stepsTo m.endLocation ∈ m.motionType.distances := by
  cases ht : m.motionType <;>
    simp [travelsWell, travel, ht, MotionType.travel, Travel.covers, MotionType.distances]

theorem formed_of_mem_options : ∀ {l : Location} {m : Motion}, m ∈ options l →
    m.Formed l.grid ∧ m.motionType ≠ .float := by
  intro l
  cases l <;> decide

namespace Formed

theorem rotated (h : m.Formed g) (slice : Slice) : (m.rotated slice.steps).Formed g := by
  have he : (slice.steps : Int) % 2 = 0 := by cases slice <;> rfl
  have hhand : (m.rotated slice.steps).handRotation = m.handRotation :=
    Location.handRotation_rotated _ _ _
  constructor
  · exact (Location.grid_rotated _ he).trans h.startGrid
  · exact (Location.grid_rotated _ he).trans h.endGrid
  · exact (Location.stepsTo_rotated m.startLocation m.endLocation slice.steps).symm ▸ h.travels
  · exact fun ht => (h.pro ht).trans hhand.symm
  · exact fun ht => (h.anti ht).trans (congrArg Rotation.reversed hhand.symm)
  · exact fun ht => (h.float ht).trans hhand.symm
  · exact h.floats
  · exact h.still

theorem mirrored (h : m.Formed g) : m.mirrored.Formed g := by
  have hhand : m.mirrored.handRotation = m.handRotation.reversed :=
    Location.handRotation_mirrored _ _
  have hspin : m.mirrored.spin.spins = m.spin.spins := Rotation.spins_reversed m.spin
  constructor
  · exact (Location.grid_mirrored _).trans h.startGrid
  · exact (Location.grid_mirrored _).trans h.endGrid
  · exact (Location.stepsTo_mirrored m.startLocation m.endLocation).symm ▸
      MotionType.mem_distances_mirrored h.travels
  · exact fun ht => (congrArg Rotation.reversed (h.pro ht)).trans hhand.symm
  · exact fun ht => congrArg Rotation.reversed ((h.anti ht).trans hhand.symm)
  · exact fun ht => (congrArg Rotation.reversed (h.float ht)).trans hhand.symm
  · exact h.floats
  · rw [hspin]
    exact h.still

/-- With pro and anti exchanged the prop spins the other way, so a shift still spins as it should.
-/
theorem complement (h : m.Formed g) : m.complement.Formed g := by
  cases ht : m.motionType with
  | pro =>
    have hm : m.complement = { m with motionType := .anti, spin := m.spin.reversed }.rederive := by
      simp only [Motion.complement, ht, MotionType.complement]
    have hturns : m.turns ≠ .float := fun he => by simp [h.floats.mp he] at ht
    have htravels : m.startLocation.stepsTo m.endLocation ∈ MotionType.pro.distances := by
      rw [← ht]
      exact h.travels
    rw [hm]
    exact ⟨h.startGrid, h.endGrid, htravels, nofun, fun _ => congrArg Rotation.reversed (h.pro ht),
      nofun, ⟨fun he => absurd he hturns, nofun⟩, nofun⟩
  | anti =>
    have hm : m.complement = { m with motionType := .pro, spin := m.spin.reversed }.rederive := by
      simp only [Motion.complement, ht, MotionType.complement]
    have hturns : m.turns ≠ .float := fun he => by simp [h.floats.mp he] at ht
    have htravels : m.startLocation.stepsTo m.endLocation ∈ MotionType.anti.distances := by
      rw [← ht]
      exact h.travels
    have hspin : m.spin.reversed = m.handRotation := by rw [h.anti ht, Rotation.reversed_reversed]
    rw [hm]
    exact ⟨h.startGrid, h.endGrid, htravels, fun _ => hspin, nofun, nofun,
      ⟨fun he => absurd he hturns, nofun⟩, nofun⟩
  | static => simpa only [Motion.complement, ht] using h
  | dash => simpa only [Motion.complement, ht] using h
  | float => simpa only [Motion.complement, ht] using h

end Formed

theorem Within.complement (h : m.Within c) : m.complement.Within c := by
  rcases m with ⟨_ | _ | _ | _ | _⟩
  case pro | anti =>
    exact ⟨fun hl => ⟨nofun, (h.first hl).2⟩, fun hl => ⟨nofun, (h.second hl).2⟩, h.third⟩
  all_goals exact h

/-- Every CAP type keeps motions as their types ask and within the difficulty. -/
theorem isKept_suits (c : Config) : IsKept (Suits c) where
  rotated slice h := ⟨h.1.rotated slice, h.2.first, h.2.second, h.2.third⟩
  mirrored h := ⟨h.1.mirrored, h.2.first, h.2.second, h.2.third⟩
  complement h := ⟨h.1.complement, h.2.complement⟩
  outline {m m'} ho h := by
    rcases m with ⟨⟩
    rcases m' with ⟨⟩
    simp only [outline, mk.injEq, true_and] at ho
    obtain ⟨rfl, rfl, rfl, rfl, rfl, rfl, rfl⟩ := ho
    obtain ⟨⟨h1, h2, h3, h4, h5, h6, h7, h8⟩, h9, h10, h11⟩ := h
    exact ⟨⟨h1, h2, h3, h4, h5, h6, h7, h8⟩, h9, h10, h11⟩

end Motion

theorem natCast_le_of_le_floor {x : Rat} (hx : 0 ≤ x) {n : Nat} (hn : n ≤ x.floor.toNat) :
    (n : Rat) ≤ x := by
  have hfloor : 0 ≤ x.floor := Rat.le_floor_iff.mpr hx
  have hle : (n : Int) ≤ x.floor := by omega
  exact Rat.le_floor_iff.mp hle

namespace Turns

theorem isZero_iff (t : Turns) : t.isZero = true ↔ t = .zero := by
  cases t <;> simp [isZero, zero]

theorem toRat?_whole {n : Nat} (hn : n ≤ 65535) : (whole (.ofNat n)).toRat? = some (n : Rat) := by
  have hlt : 2 * n < 2 ^ 32 := by omega
  have h16 : (UInt16.ofNat n).toNat = n := UInt16.toNat_ofNat_of_lt (Nat.lt_succ_of_le hn)
  have h : (2 * (UInt16.ofNat n).toUInt32).toNat = 2 * n := by
    rw [UInt32.toNat_mul, UInt16.toNat_toUInt32, h16]
    exact Nat.mod_eq_of_lt hlt
  have hhalf : ((2 * n : Nat) : Rat) / 2 = (n : Rat) := by grind
  rw [whole, toRat?, h, hhalf]

theorem toRat?_half {n : Nat} (hn : n ≤ 4294967295) :
    (half (.ofNat n)).toRat? = some ((n : Rat) / 2) := by
  have h : (UInt32.ofNat n).toNat = n := UInt32.toNat_ofNat_of_lt (Nat.lt_succ_of_le hn)
  rw [toRat?, h]

end Turns

namespace Generation

open KineticAlphabet.Random

variable {c : Config} {start b : Beat} {beats : List Beat} {locks locks' : Locks}
  {goal : Option (Duo Location)} {turns : Turns} {lock : Option Rotation} {m m' : Motion}

namespace MayTurn

theorem ne_float (h : MayTurn c turns) : turns ≠ .float := by
  cases h <;> simp [Turns.whole, Turns.zero]

theorem eq_zero (h : MayTurn c turns) (hl : c.level = 1) : turns = .zero := by
  cases h with
  | whole h2 hn => simp [hl] at h2
  | half h3 hn => simp [hl] at h3
  | zero h2 h3 => rfl

/-- Whole turns reach the intensity at most. -/
theorem allows_whole (h : MayTurn c turns) (hc : c.Admitted) (hl : c.level = 2) :
    (∃ n : Nat, turns.toRat? = some (n : Rat)) ∧ c.Allows turns := by
  obtain ⟨most, hmost, hpos⟩ := hc.exists_intensity
  cases h with
  | @whole n h2 hn =>
    rw [wholeLimit_eq hc, Binary64.floor?, hmost] at hn
    have hturns := Turns.toRat?_whole (Nat.le_trans hn (Nat.min_le_left _ _))
    refine ⟨⟨n, hturns⟩, most, hmost, fun count hcount => ?_⟩
    rw [hturns] at hcount
    cases hcount
    exact natCast_le_of_le_floor hpos (Nat.le_trans hn (Nat.min_le_right _ _))
  | half h3 hn => simp [hl] at h3
  | zero h2 h3 => exact absurd hl h2

/-- So do half turns. -/
theorem allows_half (h : MayTurn c turns) (hc : c.Admitted) (hl : c.level = 3) :
    c.Allows turns := by
  obtain ⟨most, hmost, hpos⟩ := hc.exists_intensity
  cases h with
  | whole h2 hn => simp [hl] at h2
  | @half n h3 hn =>
    rw [halfLimit_eq_min hmost hpos] at hn
    have hturns := Turns.toRat?_half (Nat.le_trans hn (Nat.min_le_left _ _))
    refine ⟨most, hmost, fun count hcount => ?_⟩
    rw [hturns] at hcount
    cases hcount
    have hdouble : (0 : Rat) ≤ 2 * most := Rat.mul_nonneg (by decide) hpos
    have hle := natCast_le_of_le_floor hdouble (Nat.le_trans hn (Nat.min_le_right _ _))
    grind
  | zero h2 h3 => exact absurd hl h3

end MayTurn

def Locks.Directed (locks : Locks) : Prop := ∀ a r, locks.get a = some r → r.spins = true

theorem MaySpin.spins_iff {spin : Rotation} (h : MaySpin turns lock spin)
    (hl : ∀ r, lock = some r → r.spins = true) : spin.spins = true ↔ turns ≠ .zero := by
  unfold MaySpin at h
  by_cases hz : turns.isZero
  · rw [if_pos hz] at h
    rw [h]
    simp [Rotation.spins, (Turns.isZero_iff turns).mp hz]
  · have hne : turns ≠ .zero := fun he => hz ((Turns.isZero_iff turns).mpr he)
    rw [if_neg hz] at h
    have hs : spin.spins = true := by
      cases lock with
      | none => exact h
      | some r => rw [h]; exact hl r rfl
    simp [hs, hne]

/-- Dressed motions of the catalog are made as their types ask. -/
theorem Dressed.formed {g : Grid} (h : Dressed c lock m m') (hm : m.Formed g)
    (hplain : m.motionType ≠ .float) (hl : ∀ r, lock = some r → r.spins = true) :
    m'.Formed g := by
  cases h with
  | @shift turns hs ht =>
    refine ⟨hm.startGrid, hm.endGrid, hm.travels, hm.pro, hm.anti, hm.float,
      ⟨fun he => absurd he ht.ne_float, fun he => absurd he hplain⟩, fun hstill => ?_⟩
    simp only [List.mem_cons, List.not_mem_nil, or_false] at hstill
    rcases hstill with he | he <;> simp [show m.motionType = _ from he, MotionType.isShift] at hs
  | float hs hl =>
    have htravels : m.startLocation.stepsTo m.endLocation ∈ MotionType.float.distances := by
      have h := hm.travels
      cases ht : m.motionType <;> simp [ht, MotionType.isShift] at hs <;> rw [ht] at h <;> exact h
    exact ⟨hm.startGrid, hm.endGrid, htravels, nofun, nofun, fun _ => rfl,
      ⟨fun _ => rfl, fun _ => rfl⟩, nofun⟩
  | @still turns spin hs ht hspin =>
    have hne : ∀ t : MotionType, t.isShift = true → m.motionType ≠ t := by
      rintro t ht rfl
      rw [hs] at ht
      cases ht
    exact ⟨hm.startGrid, hm.endGrid, hm.travels, fun he => absurd he (hne _ rfl),
      fun he => absurd he (hne _ rfl), fun he => absurd he (hne _ rfl),
      ⟨fun he => absurd he ht.ne_float, fun he => absurd he hplain⟩, fun _ => hspin.spins_iff hl⟩

theorem MayTurn.within (h : MayTurn c turns) (hc : c.Admitted) (hm : m.motionType ≠ .float)
    (ht : m.turns = turns) : m.Within c := by
  subst ht
  exact ⟨fun hl => ⟨hm, h.eq_zero hl⟩, fun hl => ⟨hm, h.allows_whole hc hl⟩, h.allows_half hc⟩

/-- Dressed motions of the catalog are within the difficulty. -/
theorem Dressed.within (h : Dressed c lock m m') (hc : c.Admitted)
    (hplain : m.motionType ≠ .float) : m'.Within c := by
  cases h with
  | shift hs ht => exact ht.within hc hplain rfl
  | still hs ht hspin => exact ht.within hc hplain rfl
  | float hs hl =>
    obtain ⟨most, hmost, -⟩ := hc.exists_intensity
    refine ⟨fun h1 => ?_, fun h2 => ?_, fun _ => ⟨most, hmost, nofun⟩⟩
    · omega
    · omega

theorem Locks.Directed.free : Locks.free.Directed := by
  intro a r h
  cases a <;> cases h

theorem Locks.Directed.record (h : locks.Directed) (continuity : Continuity) (ms : Motions) :
    (locks.record continuity ms).Directed := by
  intro a r hr
  cases continuity with
  | random => exact h a r hr
  | continuous =>
    rw [Locks.record, Duo.get_ofFn, Option.or_eq_some_iff] at hr
    rcases hr with hr | ⟨-, hr⟩
    · exact h a r hr
    · obtain ⟨m, -, hm⟩ := Option.bind_eq_some_iff.mp hr
      unfold Motion.spinning? at hm
      split at hm
      case isTrue hs =>
        cases hm
        exact hs
      case isFalse => cases hm

theorem Picked.directed (h : Picked c start beats locks) : locks.Directed := by
  induction h with
  | nil => exact .free
  | snoc h hb ih =>
    cases hb with
    | intro hs hd hp => exact ih.record _ _

/-- A picked beat holds motions as they should be. -/
theorem Step.every_suits (h : Step c start goal beats locks b locks') (hc : c.Admitted)
    (hl : locks.Directed) : b.motions.Every (Motion.Suits c) := by
  cases h with
  | @intro state ms hs hd hp =>
    refine .of_outline (Motion.isKept_suits c) (outline_assemble _ _ _ _) ?_
    cases hd with
    | @intro plain dressed l hcand hdress =>
      intro a m ha
      rw [Duo.get_map] at ha
      cases ha
      obtain ⟨hform, hplain⟩ := Motion.formed_of_mem_options (hcand.options a)
      rw [hcand.onGrid a] at hform
      exact ⟨(hdress a).formed hform hplain (hl a), (hdress a).within hc hplain⟩

theorem Picked.every_suits (h : Picked c start beats locks) (hc : c.Admitted) :
    ∀ b ∈ beats, b.motions.Every (Motion.Suits c) :=
  h.forall_mem fun h hb => hb.every_suits hc h.directed

/-- Apart from orientations every beat that a slice is joined to holds an image of one of its beats.
-/
theorem Joined.exists_repeated {part : List Beat} {last : Duo Stance}
    (h : Joined start (repeated c part) beats last) (hb : b ∈ beats) : ∃ k, ∃ b' ∈ part,
      b.motions.outline = (c.cap.onMotionsN c.slice k b'.motions).outline := by
  have hmem : b.motions.outline ∈ (repeated c part).map Duo.outline := by
    rw [← h.outlines]
    exact List.mem_map_of_mem hb
  obtain ⟨ms, hms, ho⟩ := List.mem_map.mp hmem
  obtain ⟨k, -, hms⟩ := List.mem_flatMap.mp hms
  obtain ⟨b', hb', rfl⟩ := List.mem_map.mp hms
  exact ⟨k, b', hb', ho.symm⟩

/-- What symmetries keep of the motions of a slice holds of all beats that it is joined to. -/
theorem Joined.every_repeated {P : Motion → Prop} {part : List Beat} {last : Duo Stance}
    (h : Joined start (repeated c part) beats last) (hP : Motion.IsKept P)
    (hpart : ∀ b ∈ part, b.motions.Every P) : ∀ b ∈ beats, b.motions.Every P := by
  intro b hb
  obtain ⟨k, b', hb', ho⟩ := h.exists_repeated hb
  exact .of_outline hP ho (c.cap.every_onMotionsN hP.toIsCarried c.slice k (hpart b' hb'))

/-- What symmetries keep of picked motions holds of all beats that are built. -/
theorem Built.every {P : Motion → Prop} (h : Built c start beats) (hP : Motion.IsKept P)
    (hpicked : ∀ {part locks}, Picked c start part locks → ∀ b ∈ part, b.motions.Every P) :
    ∀ b ∈ beats, b.motions.Every P := by
  cases h with
  | freely hm hp hl => exact hpicked hp
  | circled hm hs h =>
    obtain ⟨locks, hp⟩ := h.picked
    obtain ⟨last, hj, -⟩ := h.joined
    exact hj.every_repeated hP (hpicked hp)

theorem Built.every_suits (h : Built c start beats) (hc : c.Admitted) :
    ∀ b ∈ beats, b.motions.Every (Motion.Suits c) :=
  h.every (Motion.isKept_suits c) fun hp => hp.every_suits hc

/-- In every beat of a generated sequence both actors move, on the grid, as the types of their
motions ask, and within the difficulty of the configuration. -/
theorem generate_suits {σ : Type} (source : Source σ) {s : σ} {q : Sequence}
    (h : ((generate source c).run s).1 = .ok q) : ∀ b ∈ q.beats, ∀ a, ∃ m,
      b.motions.get a = some m ∧ m.Formed c.grid ∧ m.Within c := by
  obtain ⟨start, beats, hc, hs, hb, rfl⟩ := exists_built source h
  obtain ⟨mss, first, last, hj, -⟩ := hb.exists_joined hc hs
  rw [finish_beats, hb.renumber_eq hc hs]
  intro b hmem a
  obtain ⟨i, hi⟩ := List.mem_iff_getElem?.mp hmem
  obtain ⟨-, before, after, hcarries, -⟩ := hj.getElem? hi
  obtain ⟨ms, hms, -⟩ := hcarries.motions
  have hget : b.motions.get a = some (ms.get a) := by rw [hms, Duo.get_map]
  exact ⟨ms.get a, hget, hb.every_suits hc b hmem a _ hget⟩

/-- The first seed gives a circular sequence of 32 beats at the highest level. In its last beat, an
image of one that was picked, red moves as it should. -/
theorem generate_suits_advanced : ∃ q b m,
    ((generate ChaCha.source (Config.advanced.withCap .mirroredSwappedComplementary .halved)).run
      (.ofSeed 0)).1 = .ok q ∧ q.beats[31]? = some b ∧ b.motions.get .red = some m ∧
    m.Formed .diamond ∧
    m.Within (Config.advanced.withCap .mirroredSwappedComplementary .halved) := by
  have hadm := Config.admitted_advanced_halved .mirroredSwappedComplementary
  obtain ⟨q, hq⟩ := exists_sequence ChaCha.source (Config.check_eq_ok_iff.mpr hadm) rfl rfl
    (.ofSeed 0)
  have hlen : 31 < q.beats.length := by
    rw [← Sequence.length, length_eq_of_generate ChaCha.source hq]
    decide
  obtain ⟨m, hm⟩ := generate_suits ChaCha.source hq _ (List.getElem_mem hlen) .red
  exact ⟨q, _, m, hq, List.getElem?_eq_getElem hlen, hm⟩

end Generation

end KineticAlphabet
