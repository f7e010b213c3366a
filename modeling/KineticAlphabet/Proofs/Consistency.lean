import KineticAlphabet.Motion.Record
import KineticAlphabet.Proofs.Editing
import KineticAlphabet.Proofs.Invariance
/-!
The end orientation of a motion is never stale. Whatever makes a motion derives its end orientation,
and whatever changes one derives it anew or touches nothing that it follows from; a record may claim
any end orientation, since none is read. So no motion that comes about in these ways, in any order,
is inconsistent, and a sequence of such motions never fails the validity check for an orientation
that does not follow, however it is edited.
-/
namespace KineticAlphabet

open Json (Doc)

namespace Motion

/-- The motions that can come about: those made from scratch or read from a record, and what changes
and symmetries make of such motions. -/
inductive Made : Motion → Prop
  | make (t : MotionType) (start stop : Location) (turns : Turns) (spin : Rotation)
      (o : Orientation) : Made (.make t start stop turns spin o)
  | shift (t : MotionType) (start stop : Location) (o : Orientation) : Made (.shift t start stop o)
  | staticAt (l : Location) (o : Orientation) : Made (.staticAt l o)
  | dashFrom (l : Location) (o : Orientation) : Made (.dashFrom l o)
  | read {d : Doc} {m : Motion} (h : ofDoc d = .ok m) : Made m
  | rederive {m : Motion} (h : Made m) : Made m.rederive
  | withStartOrientation {m : Motion} (h : Made m) (o : Orientation) :
      Made (m.withStartOrientation o)
  | withTurns {m : Motion} (h : Made m) (turns : Turns) : Made (m.withTurns turns)
  | withSpin {m : Motion} (h : Made m) (spin : Rotation) : Made (m.withSpin spin)
  | withPath {m : Motion} (h : Made m) (path : List Point) : Made (m.withPath path)
  | withBlend {m : Motion} (h : Made m) (blend : Blend) : Made (m.withBlend blend)
  | intoFloat {m : Motion} (h : Made m) : Made m.intoFloat
  | onMotions (c : Cap) (slice : Slice) {ms : Motions} (h : ∀ a m, ms.get a = some m → Made m)
      {a : Actor} {m : Motion} (hm : (c.onMotions slice ms).get a = some m) : Made m
  | onMotionsN (c : Cap) (slice : Slice) (n : Nat) {ms : Motions}
      (h : ∀ a m, ms.get a = some m → Made m) {a : Actor} {m : Motion}
      (hm : (c.onMotionsN slice n ms).get a = some m) : Made m

variable {m : Motion}

theorem Consistent.complement (h : m.Consistent) : m.complement.Consistent := by
  unfold Motion.complement
  split
  · exact consistent_rederive _
  · exact consistent_rederive _
  · exact h

theorem isCarried_consistent : IsCarried Consistent where
  rotated _ _ := consistent_rederive _
  mirrored _ := consistent_rederive _
  complement := Consistent.complement

/-- What a record claims about the end orientation does not count. -/
theorem consistent_of_toMotion {draft : Draft} (h : draft.toMotion = .ok m) : m.Consistent := by
  obtain ⟨raw, -, h⟩ := bind_eq_ok_iff.mp h
  obtain ⟨start, -, h⟩ := bind_eq_ok_iff.mp h
  obtain ⟨stop, -, h⟩ := bind_eq_ok_iff.mp h
  obtain ⟨turns, -, h⟩ := bind_eq_ok_iff.mp h
  generalize Draft.typeAndBlend raw = named at h
  cases hp : draft.path <;> rw [hp] at h <;> cases h <;> rfl

theorem consistent_of_ofDoc {d : Doc} (h : ofDoc d = .ok m) : m.Consistent := by
  obtain ⟨draft, -, h⟩ := bind_eq_ok_iff.mp h
  exact consistent_of_toMotion h

theorem Made.consistent (h : m.Made) : m.Consistent := by
  induction h with
  | make t start stop turns spin o => exact consistent_make _ _ _ _ _ _
  | shift t start stop o => exact consistent_make _ _ _ _ _ _
  | staticAt l o => exact consistent_make _ _ _ _ _ _
  | dashFrom l o => exact consistent_make _ _ _ _ _ _
  | read h => exact consistent_of_ofDoc h
  | rederive _ _ => exact consistent_rederive _
  | withStartOrientation _ o _ => exact consistent_rederive _
  | withTurns _ turns _ => exact consistent_rederive _
  | withSpin _ spin _ => exact consistent_rederive _
  | withPath _ path ih => exact ih
  | withBlend _ blend ih => exact ih
  | intoFloat _ _ => exact consistent_rederive _
  | onMotions c slice _ hm ih => exact c.every_onMotions isCarried_consistent slice ih _ _ hm
  | onMotionsN c slice n _ hm ih => exact c.every_onMotionsN isCarried_consistent slice n ih _ _ hm

/-- So is a motion that is read from a text. -/
theorem Made.of_readText {text : String} (h : Doc.readText ofDoc text = .ok m) : m.Made := by
  obtain ⟨m', hm, h⟩ := bind_eq_ok_iff.mp h
  split at h
  case isTrue => cases h
  case isFalse => exact .read (Except.ok.inj h ▸ hm)

end Motion

namespace Sequence

variable {s t : Sequence} {P : Motion → Prop} {bs : List Beat}

theorem exists_of_mem_renumber {b : Beat} (h : b ∈ renumber bs) :
    ∃ b' ∈ bs, b'.motions = b.motions := by
  obtain ⟨i, hi⟩ := List.mem_iff_getElem?.mp h
  rw [getElem?_renumber] at hi
  obtain ⟨b', hb', rfl⟩ := Option.map_eq_some_iff.mp hi
  exact ⟨b', List.mem_of_getElem? hb', rfl⟩

theorem Every.withBeats (h : s.Every P) (hb : ∀ b ∈ bs, b.motions.Every P) :
    (s.withBeats bs).Every P := by
  refine ⟨h.1, fun b hmem => ?_⟩
  obtain ⟨b', hb', he⟩ := exists_of_mem_renumber hmem
  exact he ▸ hb b' hb'

def Edit.Every (P : Motion → Prop) (e : Edit) : Prop := ∀ b, e.beat? = some b → b.motions.Every P

/-- An edit brings no other motions than those of its beat. -/
theorem Every.apply (h : s.Every P) {e : Edit} (he : e.Every P) (ha : e.apply s = .ok t) :
    t.Every P := by
  by_cases hb : e.OfBeats
  · obtain ⟨bs, rfl, hbs⟩ := hb.exists_withBeats ha
    exact h.withBeats fun b hmem => (hbs b hmem).elim (h.2 b) (he b)
  · cases e with
    | start b =>
      cases ha
      refine ⟨fun b' hb' => ?_, h.2⟩
      cases hb'
      exact he b rfl
    | metadata name v =>
      cases ha
      exact h
    | rebuild name =>
      cases ha
      refine ⟨fun b hb => ?_, (h.withBeats h.2).2⟩
      obtain ⟨b', hb', rfl⟩ := Option.map_eq_some_iff.mp hb
      exact h.1 b' hb'
    | add b => exact absurd trivial hb
    | insert n b => exact absurd trivial hb
    | remove n => exact absurd trivial hb
    | update n b => exact absurd trivial hb

theorem Every.edited (h : s.Every P) {es : List Edit} (he : ∀ e ∈ es, e.Every P) :
    (s.edited es).Every P := by
  unfold Sequence.edited
  induction es generalizing s with
  | nil => exact h
  | cons e es ih =>
    rw [List.forall_mem_cons] at he
    refine ih ?_ he.2
    unfold step
    split
    case h_1 t ha => exact h.apply he.1 ha
    case h_2 => exact h

theorem Every.mono {Q : Motion → Prop} (h : s.Every P) (hPQ : ∀ m, P m → Q m) : s.Every Q :=
  ⟨fun b hb a m hm => hPQ m (h.1 b hb a m hm), fun b hb a m hm => hPQ m (h.2 b hb a m hm)⟩

theorem not_flaw_orientationInvariant {b : Beat} (h : b.motions.Every Motion.Consistent) {n : Nat}
    {a : Actor} : ¬ b.Flaw (.orientationInvariant n a) := by
  rintro (_ | ⟨hm, hc⟩)
  exact hc (h a _ hm)

theorem checkMotions_ne_orientationInvariant {b : Beat} (h : b.motions.Every Motion.Consistent)
    {n : Nat} {a : Actor} : b.checkMotions ≠ .error (.orientationInvariant n a) :=
  fun he => not_flaw_orientationInvariant h (Beat.flaw_of_checkMotions he)

/-- The check never finds an orientation that does not follow where all motions are consistent. -/
theorem Every.validate_ne (h : s.Every Motion.Consistent) (closed : Bool) (n : Nat) (a : Actor) :
    s.validate closed ≠ .error (.orientationInvariant n a) := by
  intro hv
  cases hk : s.walk with
  | ok k =>
    rw [validate_of_walk hk] at hv
    split at hv <;> cases hv
  | error v =>
    rw [validate_of_walk_eq_error hk] at hv
    cases hv
    rcases walk_eq_error hk with he | ⟨i, b, k, hi, -, he⟩
    · cases hs : s.startPosition with
      | none =>
        rw [hs] at he
        cases he
      | some b =>
        rw [hs] at he
        rcases bind_eq_error_iff.mp he with he | ⟨d, -, he⟩
        · exact checkMotions_ne_orientationInvariant (h.1 b hs) he
        · cases he
    · rcases checkBeat_eq_error he with ⟨-, he⟩ | ⟨-, -, he | ⟨d, c, -, -, he⟩⟩
      · cases he
      · exact checkMotions_ne_orientationInvariant (h.2 b (List.mem_of_getElem? hi)) he
      · obtain ⟨a', ⟨-, he⟩ | ⟨-, -, he⟩⟩ := checkContinuity_eq_error he <;> cases he

/-- However motions come about, they are consistent. So a sequence of such motions, after any run of
edits that bring such motions, never fails the check for an end orientation that does not follow. -/
theorem validate_edited_ne {es : List Edit} (hs : s.Every Motion.Made)
    (he : ∀ e ∈ es, e.Every Motion.Made) (closed : Bool) (n : Nat) (a : Actor) :
    (∀ m : Motion, m.Made → m.Consistent) ∧
    (s.edited es).validate closed ≠ .error (.orientationInvariant n a) := by
  have hconsistent : ∀ m : Motion, m.Made → m.Consistent := fun _ hm => hm.consistent
  exact ⟨hconsistent, ((hs.edited he).mono hconsistent).validate_ne closed n a⟩

/-- A record of a quarter shift that claims an end orientation of its own. -/
def claiming : String :=
  "\x7b\"motionType\":\"anti\",\"startLocation\":\"n\",\"endLocation\":\"e\",\"turns\":1.5," ++
    "\"propRotationDirection\":\"ccw\",\"endOrientation\":\"out\"\x7d"

/-- The motion of that record, and in the beat in front of it a float and its mirror image. -/
theorem validate_edited_ne_claiming : ∃ m, Doc.readText Motion.ofDoc claiming = .ok m ∧
    m.endOrientation ≠ .outward ∧ (∀ m : Motion, m.Made → m.Consistent) ∧
    ((ofBeats "" none [{ Beat.empty 7 with motions := ⟨some m, none⟩ }]).edited
      [.insert 1 { Beat.empty 0 with motions := ⟨some m.intoFloat, some m.mirrored⟩ }]).validate
        true ≠ .error (.orientationInvariant 2 .blue) := by
  obtain ⟨m, hm, hout⟩ : ∃ m, Doc.readText Motion.ofDoc claiming = .ok m ∧
      m.endOrientation ≠ .outward :=
    ⟨.make .anti .n .e (.half 3) .ccw .inward, ok_of_toOption (by decide +kernel), by decide⟩
  have hmade : m.Made := .of_readText hm
  have hpair : ∀ a m', (⟨some m, none⟩ : Motions).get a = some m' → m'.Made := by
    rintro (_ | _) _ ⟨⟩
    exact hmade
  have himage : m.mirrored.Made := .onMotions .strictMirrored .halved hpair (a := .blue) rfl
  refine ⟨m, hm, hout, validate_edited_ne ⟨by rintro _ ⟨⟩, ?_⟩ ?_ true 2 .blue⟩
  · intro b hb
    obtain rfl := List.mem_singleton.mp hb
    rintro (_ | _) _ ⟨⟩
    exact hmade
  · intro e he b hb
    obtain rfl := List.mem_singleton.mp he
    cases hb
    rintro (_ | _) _ ⟨⟩
    · exact hmade.intoFloat
    · exact himage

end Sequence

end KineticAlphabet
