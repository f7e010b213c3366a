import KineticAlphabet.Proofs.Scripting
/-!
Excluded letters. A pick looks at the letter of a pictograph before its motions are dressed. A float
counts as pro, so at the highest level an anti shift that becomes a float can turn the letter into
another one. Circular generation looks at the letters of all its beats again, freeform generation
does not. So an excluded letter comes exactly where some letter that may be drawn can turn into it.
-/
namespace KineticAlphabet

namespace Motion

/-- The float of a shift, if it is asked for. Other motions stay as they are. -/
def floatedIf (m : Motion) (asked : Bool) : Motion :=
  if m.motionType.isShift && asked then m.intoFloat else m

@[simp] theorem startLocation_floatedIf (m : Motion) (asked : Bool) :
    (m.floatedIf asked).startLocation = m.startLocation := by
  unfold floatedIf
  split <;> rfl

@[simp] theorem endLocation_floatedIf (m : Motion) (asked : Bool) :
    (m.floatedIf asked).endLocation = m.endLocation := by
  unfold floatedIf
  split <;> rfl

end Motion

/-- On every grid there are options that spell a letter and, with floats among them, any letter it
can turn into. -/
theorem Catalog.exists_softened (g : Grid) : ∀ l ∈ Letter.all, ∀ l' ∈ l.softened,
    ∃ hands ∈ pairs g.points g.points,
      ∃ ms ∈ pairs (Motion.options hands.blue) (Motion.options hands.red),
        Letter.ofMotions? ms = some l ∧ ∃ blue red,
          Letter.ofMotions? ⟨ms.blue.floatedIf blue, ms.red.floatedIf red⟩ = some l' := by
  cases g <;> decide +kernel

def Config.MayDraw (c : Config) (l : Letter) : Prop :=
  l.text ∉ c.excludedLetters ∧ (c.mode = .freeform → l.letterType ∈ c.letterTypes)

/-- Whether a letter that may be drawn can turn into an excluded one that is not looked at again. -/
def Config.Respells (c : Config) : Prop :=
  c.mode = .freeform ∧ c.level = 3 ∧
    ∃ l, c.MayDraw l ∧ ∃ l' ∈ l.softened, l'.text ∈ c.excludedLetters

namespace Generation

open KineticAlphabet.Random

variable {c : Config} {start b : Beat} {beats : List Beat} {locks locks' : Locks}
  {goal : Option (Duo Location)}

/-- Dressing leaves the type of a motion alone unless it makes a float of a shift. -/
theorem Dressed.motionType_eq {lock : Option Rotation} {m m' : Motion} (h : Dressed c lock m m') :
    m'.motionType = m.motionType ∨
      3 ≤ c.level ∧ m.motionType.isShift ∧ m'.motionType = .float := by
  cases h with
  | shift => exact .inl rfl
  | float hm hl => exact .inr ⟨hl, hm, rfl⟩
  | still => exact .inl rfl

theorem Dressed.travel {lock : Option Rotation} {m m' : Motion} (h : Dressed c lock m m') :
    m'.travel = m.travel := by
  rcases h.motionType_eq with h | ⟨-, hm, h⟩
  · simp only [Motion.travel, h]
  · simp only [Motion.travel, h]
    cases ht : m.motionType <;> simp [ht, MotionType.isShift] at hm <;> rfl

theorem Dressed.isAnti {lock : Option Rotation} {m m' : Motion} (h : Dressed c lock m m')
    (ha : m'.isAnti) : m.isAnti := by
  rcases h.motionType_eq with h | ⟨-, -, h⟩
  · simpa only [Motion.isAnti, h] using ha
  · simp [Motion.isAnti, h] at ha

theorem assemble_letter (n : Nat) (ms : Duo Motion) (state : Duo Stance) (history : List Beat) :
    (assemble n (ms.map some) state history).letter =
      (Letter.ofMotions? ms).map Letter.text := rfl

/-- The letters of motions as they are drawn and as they are dressed. Only at the highest level they
differ. -/
theorem letter_of_dressed {plain dressed : Duo Motion} {l l' : Letter}
    (hd : ∀ a, Dressed c (locks.get a) (plain.get a) (dressed.get a))
    (h : Letter.ofMotions? plain = some l) (h' : Letter.ofMotions? dressed = some l') :
    l' = l ∨ 3 ≤ c.level ∧ l' ∈ l.softened := by
  have hs : dressed.map Motion.startLocation = plain.map Motion.startLocation :=
    Duo.ext (hd .blue).startLocation (hd .red).startLocation
  have he : dressed.map Motion.endLocation = plain.map Motion.endLocation :=
    Duo.ext (hd .blue).endLocation (hd .red).endLocation
  by_cases hl : 3 ≤ c.level
  · have ht : dressed.map Motion.travel = plain.map Motion.travel :=
      Duo.ext (hd .blue).travel (hd .red).travel
    rcases Letter.maySoften_of_ofMotions? ht hs he (fun a => (hd a).isAnti) h h' with h | h
    · exact .inl h
    · exact .inr ⟨hl, h⟩
  · have hm : ∀ a, (dressed.get a).motionType = (plain.get a).motionType := fun a =>
      (hd a).motionType_eq.resolve_right fun h => hl h.1
    have ht : dressed.map Motion.motionType = plain.map Motion.motionType :=
      Duo.ext (hm .blue) (hm .red)
    rw [Letter.ofMotions?_congr ht hs he, h] at h'
    exact .inl (Option.some.inj h').symm

/-- A beat whose letter is one that may be drawn, or at the highest level one that such a letter can
turn into. -/
def Spells (c : Config) (b : Beat) : Prop :=
  ∀ x, b.letter = some x → ∃ l l' : Letter, c.MayDraw l ∧ l'.text = x ∧
    (l' = l ∨ 3 ≤ c.level ∧ l' ∈ l.softened)

theorem Step.spells (h : Step c start goal beats locks b locks') : Spells c b := by
  cases h with
  | intro hs hd hp =>
    cases hd with
    | @intro plain dressed l hc hd =>
      intro x hx
      rw [assemble_letter] at hx
      obtain ⟨l', hl', hx⟩ := Option.map_eq_some_iff.mp hx
      exact ⟨l, l', ⟨hc.allowed, hc.typed⟩, hx, letter_of_dressed hd hc.spells hl'⟩

theorem Picked.spells (h : Picked c start beats locks) : ∀ b ∈ beats, Spells c b :=
  h.forall_mem fun _ hb => hb.spells

/-- An excluded letter among built beats is one that a letter which may be drawn turned into. -/
theorem Built.respells (h : Built c start beats) (hc : c.Admitted) (hb : b ∈ beats) {x : String}
    (hl : b.letter = some x) (hx : x ∈ c.excludedLetters) : c.Respells := by
  cases h with
  | freely hm hp =>
    obtain ⟨l, l', hd, rfl, rfl | ⟨hlevel, hs⟩⟩ := hp.spells b hb x hl
    · exact absurd hx hd.1
    · exact ⟨hm, Nat.le_antisymm hc.level_le hlevel, l, hd, l', hs, hx⟩
  | circled hm hs h =>
    have ha := h.allowed b hb
    simp [isExcluded, hl, hx] at ha

/-- At the highest level every shift of the catalog may become a float, and every motion may stay of
its type. -/
theorem exists_dressed (hl : c.level = 3) (m : Motion) (asked : Bool) :
    ∃ m', Dressed c none m m' ∧ m'.motionType = (m.floatedIf asked).motionType := by
  have ht : MayTurn c .zero := .half hl (Nat.zero_le _)
  have hs : MaySpin .zero none .none := by simp [MaySpin, Turns.zero, Turns.isZero]
  by_cases hm : m.motionType.isShift
  · cases asked with
    | false =>
      refine ⟨_, .shift hm ht, ?_⟩
      simp [Motion.floatedIf, Motion.rederive]
    | true =>
      refine ⟨_, .float hm (Nat.le_of_eq hl.symm), ?_⟩
      simp [Motion.floatedIf, hm]
  · refine ⟨_, .still (by simpa using hm) ht hs, ?_⟩
    simp [Motion.floatedIf, Motion.rederive, hm]

/-- Where a letter that may be drawn can turn into an excluded one, there is a pick that does so. -/
theorem exists_picked_excluded (h : c.Respells) : ∃ start b locks, Started c start ∧
    Picked c start [b] locks ∧ ∃ x, b.letter = some x ∧ x ∈ c.excludedLetters := by
  obtain ⟨hm, hl, l, hd, l', hs, hx⟩ := h
  obtain ⟨hands, hh, ms, hms, hspell, blue, red, hspell'⟩ :=
    Catalog.exists_softened c.grid l (Letter.mem_all l) l' hs
  rw [Catalog.mem_pairs, Grid.mem_points_iff, Grid.mem_points_iff] at hh
  rw [Catalog.mem_pairs] at hms
  have hg : ∀ a, (hands.get a).grid = c.grid := Actor.forall_iff.mpr hh
  have hc : Candidate c hands none ms l :=
    ⟨⟨hg, Actor.forall_iff.mpr hms, hspell⟩, hd.1, hd.2, nofun⟩
  obtain ⟨db, hdb, htb⟩ := exists_dressed hl ms.blue blue
  obtain ⟨dr, hdr, htr⟩ := exists_dressed hl ms.red red
  have hdrawn : Drawn c .free hands none (Duo.map some ⟨db, dr⟩) :=
    .intro hc (Actor.forall_iff.mpr ⟨hdb, hdr⟩)
  have hletter : Letter.ofMotions? ⟨db, dr⟩ = some l' := by
    rw [← hspell']
    apply Letter.ofMotions?_congr
    · exact Duo.ext htb htr
    · apply Duo.ext <;> simp [Duo.map, hdb.startLocation, hdr.startLocation]
    · apply Duo.ext <;> simp [Duo.map, hdb.endLocation, hdr.endLocation]
  let start : Beat := .ofStances (inwardState hands) (Position.label? hands)
  have hstate : lastState? start [] = some (inwardState hands) := rfl
  have hstep := Step.intro hstate hdrawn (Locks.permits_free _)
  refine ⟨start, _, _, .intro hg, .snoc .nil hstep, l'.text, ?_, hx⟩
  rw [assemble_letter, hletter]
  rfl

/-- One beat is enough for that. -/
theorem exists_excluded_of_respells (hc : c.check = .ok ()) (h : c.Respells)
    (hl : c.length = 1) : ∃ draws q, ((generate script c).run draws).1 = .ok q ∧
      ∃ b ∈ q.beats, ∃ x, b.letter = some x ∧ x ∈ c.excludedLetters := by
  obtain ⟨start, b, locks, hs, hp, hx⟩ := exists_picked_excluded h
  obtain ⟨draws, hdraws⟩ := generate_scripted hc h.1 hs hp hl.symm
  have hb : Built c start [b] := .freely h.1 hp hl.symm
  refine ⟨draws ++ [], _, congrArg Prod.fst (hdraws []), b, ?_, hx⟩
  rw [finish_beats, hb.renumber_eq (Config.check_eq_ok_iff.mp hc) hs]
  exact List.mem_singleton_self b

/-- Generation of a configuration brings an excluded letter at some length just where a letter that
may be drawn can turn into one that is not looked at again. -/
theorem exists_excluded_iff_respells (hc : c.check = .ok ()) :
    (∃ n, ∃ (σ : Type) (source : Source σ) (s : σ) (q : Sequence),
      ((generate source { c with length := n }).run s).1 = .ok q ∧
        ∃ b ∈ q.beats, ∃ x, b.letter = some x ∧ x ∈ c.excludedLetters) ↔ c.Respells := by
  constructor
  · rintro ⟨n, σ, source, s, q, hq, b, hb, x, hl, hx⟩
    obtain ⟨start, beats, ha, hs, h, rfl⟩ := exists_built source hq
    rw [finish_beats, h.renumber_eq ha hs] at hb
    exact h.respells ha hb hl hx
  · intro h
    have hc' : ({ c with length := 1 } : Config).check = .ok () :=
      Config.check_withLength hc h.1 Nat.one_pos
    obtain ⟨draws, q, hq, hb⟩ := exists_excluded_of_respells hc' h rfl
    exact ⟨1, _, script, draws, q, hq, hb⟩

/-- With A excluded, a C whose anti shift becomes a float still brings an A. -/
theorem exists_excluded_advanced :
    ({ Config.advanced with excludedLetters := ["A"] } : Config).check = .ok () ∧
      ∃ n, ∃ (σ : Type) (source : Source σ) (s : σ) (q : Sequence),
        ((generate source
          { Config.advanced with excludedLetters := ["A"], length := n }).run s).1 = .ok q ∧
          ∃ b ∈ q.beats, ∃ x, b.letter = some x ∧ x ∈ ["A"] := by
  have hc : ({ Config.advanced with excludedLetters := ["A"] } : Config).check = .ok () :=
    Config.check_eq_ok_iff.mpr { Config.admitted_advanced with }
  refine ⟨hc, (exists_excluded_iff_respells hc).mpr ⟨rfl, rfl, .C, ⟨?_, fun _ => ?_⟩, .A, ?_, ?_⟩⟩
  all_goals decide

end Generation

end KineticAlphabet
