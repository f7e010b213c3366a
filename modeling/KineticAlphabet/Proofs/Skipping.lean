import KineticAlphabet.Proofs.Editing
import KineticAlphabet.Proofs.Validity
/-!
Blank beats in the validity check. The check of a beat goes with any renaming of beat numbers that
keeps them apart, and so does the check of beats that count on under the new names. A blank beat
leaves what the check carries as it is, so one that is put in or taken out only shifts the numbers
behind it, at the front, in the middle and at the end alike. One more beat is checked against the
last state past blank beats, which is where the sequence ends unless it ends in one.
-/
namespace KineticAlphabet

section

variable {ε ε' α β : Type}

theorem mapError_bind (g : ε → ε') (x : Except ε α) (f : α → Except ε β) :
    (x >>= f).mapError g = x.mapError g >>= fun a => (f a).mapError g := by
  cases x <;> rfl

end

def Violation.renumbered (f : Nat → Nat) : Violation → Violation
  | .nonContiguous expected found => .nonContiguous (f expected) (f found)
  | .missingMotion beat => .missingMotion (f beat)
  | .orientationInvariant beat a => .orientationInvariant (f beat) a
  | .locationDiscontinuity beat a => .locationDiscontinuity (f beat) a
  | .orientationDiscontinuity beat a => .orientationDiscontinuity (f beat) a
  | .notClosed => .notClosed

def Beat.renumbered (f : Nat → Nat) (b : Beat) : Beat := { b with number := f b.number }

/-- What a number becomes when another beat takes a place: from there on it is one more. -/
def raised (place n : Nat) : Nat := if n < place then n else n + 1

/-- What a number becomes when the beat at a place goes: from there on it is one less. -/
def lowered (place n : Nat) : Nat := if n < place then n else n - 1

theorem lowered_raised (place : Nat) : Function.LeftInverse (lowered place) (raised place) := by
  intro n
  by_cases h : n < place
  · simp [lowered, raised, h]
  · have hnext : ¬ n + 1 < place := by omega
    simp [lowered, raised, h, hnext]

theorem Violation.leftInverse_renumbered {f g : Nat → Nat} (h : Function.LeftInverse g f) :
    Function.LeftInverse (renumbered g) (renumbered f) := by
  intro v
  cases v <;> simp [renumbered, h _]

section

variable (f : Nat → Nat)

theorem Beat.checkMotion_renumbered (b : Beat) (a : Actor) :
    (b.renumbered f).checkMotion a = (b.checkMotion a).mapError (.renumbered f) := by
  unfold checkMotion
  cases hm : b.motions.get a with
  | none => simp [renumbered, hm, Except.mapError, Violation.renumbered]
  | some m =>
    by_cases hc : m.Consistent <;>
      simp [renumbered, hm, hc, Except.mapError, Violation.renumbered]

theorem Beat.checkMotions_renumbered (b : Beat) :
    (b.renumbered f).checkMotions = b.checkMotions.mapError (.renumbered f) := by
  simp only [checkMotions, checkMotion_renumbered, mapError_bind]
  rfl

theorem checkContinuity_renumbered (n : Nat) (before after : Duo Stance) :
    checkContinuity (f n) before after =
      (checkContinuity n before after).mapError (.renumbered f) := by
  unfold checkContinuity
  split
  · rfl
  · split <;> rfl

end

namespace Sequence

variable {f : Nat → Nat} {s t : Sequence} {b : Beat} {bs : List Beat} {n : Nat}

/-- The check of a beat goes with a renaming that keeps the numbers apart. -/
theorem checkBeat_renumbered (hf : Function.Injective f) (n : Nat) (k : Option Course) (b : Beat) :
    checkBeat (f n) k (b.renumbered f) = (checkBeat n k b).mapError (.renumbered f) := by
  have hnumber : (b.renumbered f).number = f n ↔ b.number = n := hf.eq_iff
  have hblank : (b.renumbered f).isBlank = b.isBlank := rfl
  unfold checkBeat
  by_cases hn : b.number = n
  · rw [if_neg (not_not.mpr (hnumber.mpr hn)), if_neg (not_not.mpr hn), hblank]
    split
    · rfl
    · rw [Beat.checkMotions_renumbered, mapError_bind]
      congr
      funext d
      cases k with
      | none => rfl
      | some c =>
        have hcontinuity := checkContinuity_renumbered f b.number c.last (d.map Motion.startStance)
        rw [mapError_bind, ← hcontinuity]
        rfl
  · rw [if_pos (mt hnumber.mp hn), if_pos hn]
    rfl

/-- So does the check of beats that count on under their new names. -/
theorem checkBeats_renumbered (hf : Function.Injective f) {m n : Nat}
    (hn : ∀ i < bs.length, f (n + i) = m + i) (k : Option Course) :
    checkBeats m k (bs.map (.renumbered f)) = (checkBeats n k bs).mapError (.renumbered f) := by
  induction bs generalizing m n k with
  | nil => rfl
  | cons b bs ih =>
    have hfirst : f n = m := hn 0 (Nat.zero_lt_succ _)
    have hrest : ∀ i < bs.length, f (n + 1 + i) = m + 1 + i := by
      intro i hi
      have hnext := hn (i + 1) (Nat.succ_lt_succ hi)
      rwa [Nat.add_right_comm, Nat.add_assoc, Nat.add_right_comm m, Nat.add_assoc m]
    rw [List.map_cons, checkBeats, checkBeats, mapError_bind, ← hfirst, checkBeat_renumbered hf]
    congr
    funext k'
    rw [hfirst]
    exact ih hrest k'

theorem checkBeat_of_isBlank (hb : b.isBlank = true) (k : Option Course) :
    checkBeat b.number k b = .ok k := by
  simp [checkBeat, hb]

/-- Where one more beat takes a place, the numbers from there on are raised. -/
theorem renumber_insertIdx {i : Nat} (hi : i ≤ bs.length)
    (hn : ∀ j c, bs[j]? = some c → c.number = j + 1) : renumber (bs.insertIdx i b) =
      (bs.map (.renumbered (raised (i + 1)))).insertIdx i { b with number := i + 1 } := by
  have hraised : ∀ j m, raised (i + 1) (j + 1) = m →
      bs[j]?.map (fun c => { c with number := m }) =
        (bs.map (.renumbered (raised (i + 1))))[j]? := by
    intro j m hm
    rw [List.getElem?_map]
    cases hc : bs[j]? with
    | none => rfl
    | some c => simp only [Option.map_some, Beat.renumbered, hn j c hc, hm]
  apply List.ext_getElem?
  intro j
  rw [getElem?_renumber]
  rcases Nat.lt_trichotomy j i with hj | rfl | hj
  · rw [List.getElem?_insertIdx_of_lt hj, List.getElem?_insertIdx_of_lt hj]
    exact hraised j _ (if_pos (Nat.succ_lt_succ hj))
  · rw [List.getElem?_insertIdx_self, List.getElem?_insertIdx_self, List.length_map, if_pos hi,
      if_pos hi]
    rfl
  · rw [List.getElem?_insertIdx_of_gt hj, List.getElem?_insertIdx_of_gt hj]
    have hpred : j - 1 + 1 = j := by omega
    refine hraised (j - 1) (j + 1) ?_
    rw [hpred]
    exact if_neg (by omega)

/-- A blank beat between others leaves what the check carries as it is. -/
theorem checkBeats_append_blank (hb : b.isBlank = true) {i : Nat} (hn : b.number = i + 1)
    (hi : bs.length = i) (cs : List Beat) (k : Option Course) :
    checkBeats 1 k (bs.map (.renumbered (raised (i + 1))) ++
        b :: cs.map (.renumbered (raised (i + 1)))) =
      (checkBeats 1 k (bs ++ cs)).mapError (.renumbered (raised (i + 1))) := by
  have hf := (lowered_raised (i + 1)).injective
  have hfront : ∀ j < bs.length, raised (i + 1) (1 + j) = 1 + j :=
    fun j hj => if_pos (by omega)
  have hback : ∀ j < cs.length, raised (i + 1) (1 + bs.length + j) = b.number + 1 + j := by
    intro j _
    rw [raised, if_neg (by omega)]
    omega
  have hlen : 1 + (bs.map (Beat.renumbered (raised (i + 1)))).length = b.number := by
    rw [List.length_map]
    omega
  have hblank : ∀ k' (ds : List Beat),
      checkBeats b.number k' (b :: ds) = checkBeats (b.number + 1) k' ds := by
    intro k' ds
    rw [checkBeats, checkBeat_of_isBlank hb]
    rfl
  rw [checkBeats_append, checkBeats_append, hlen, checkBeats_renumbered hf hfront, mapError_bind]
  simp only [hblank, checkBeats_renumbered hf hback]

/-- What a violation is called after the beats have got other numbers. The start position keeps
its own. -/
def moved (s : Sequence) (f : Nat → Nat) (v : Violation) : Violation :=
  match startCourse s.startPosition with
  | .error _ => v
  | .ok _ => v.renumbered f

/-- The check carries the same past a blank beat that is put in. -/
theorem walk_insert (hn : ∀ i c, s.beats[i]? = some c → c.number = i + 1) (hb : b.isBlank = true)
    (hi : s.insert n b = .ok t) : t.walk = s.walk.mapError (s.moved (raised n)) := by
  obtain ⟨⟨h1, hn'⟩, rfl⟩ := insert_eq_ok_iff.mp hi
  obtain ⟨i, rfl⟩ := Nat.exists_eq_add_of_le' h1
  have hle : i ≤ s.beats.length := Nat.le_of_succ_le_succ hn'
  have hbeats : (s.withBeats (s.beats.insertIdx i b)).beats =
      (s.beats.take i).map (.renumbered (raised (i + 1))) ++ { b with number := i + 1 } ::
        (s.beats.drop i).map (.renumbered (raised (i + 1))) := by
    rw [withBeats, renumber_insertIdx hle hn, insertIdx_eq_take_drop _ (by rwa [List.length_map]),
      List.map_take, List.map_drop]
  have hstart : (s.withBeats (s.beats.insertIdx i b)).startPosition = s.startPosition := rfl
  unfold walk moved
  rw [Nat.add_sub_cancel, hbeats, hstart]
  cases startCourse s.startPosition with
  | error v => rfl
  | ok k =>
    have hcheck := checkBeats_append_blank (b := { b with number := i + 1 }) hb rfl
      (List.length_take_of_le hle) (s.beats.drop i) k
    rw [List.take_append_drop] at hcheck
    exact hcheck

theorem moved_notClosed (s : Sequence) (f : Nat → Nat) : s.moved f .notClosed = .notClosed := by
  unfold moved
  split <;> rfl

/-- The verdict follows what is carried. -/
theorem validate_of_walk_mapError {g : Violation → Violation} (hg : g .notClosed = .notClosed)
    (h : t.walk = s.walk.mapError g) (closed : Bool) :
    t.validate closed = (s.validate closed).mapError g := by
  cases hk : s.walk with
  | error v =>
    rw [hk] at h
    rw [validate_of_walk_eq_error hk, validate_of_walk_eq_error h]
    rfl
  | ok k =>
    rw [hk] at h
    rw [validate_of_walk hk, validate_of_walk h]
    split
    · exact congrArg Except.error hg.symm
    · rfl

theorem leftInverse_moved (s : Sequence) {f g : Nat → Nat} (h : Function.LeftInverse g f) :
    Function.LeftInverse (s.moved g) (s.moved f) := by
  intro v
  unfold moved
  split
  · rfl
  · exact Violation.leftInverse_renumbered h v

/-- A blank beat that is put in changes nothing in the verdict but numbers. -/
theorem validate_insert (hn : ∀ i c, s.beats[i]? = some c → c.number = i + 1)
    (hb : b.isBlank = true) (hi : s.insert n b = .ok t) (closed : Bool) :
    t.validate closed = (s.validate closed).mapError (s.moved (raised n)) :=
  validate_of_walk_mapError (s.moved_notClosed _) (walk_insert hn hb hi) closed

/-- Nor does a blank beat that is taken out, since it can be put back. -/
theorem validate_remove (hn : ∀ i c, s.beats[i]? = some c → c.number = i + 1)
    (hb : b.isBlank = true) (hbeat : s.beat? n = some b) (hr : s.remove n = .ok t) (closed : Bool) :
    t.validate closed = (s.validate closed).mapError (s.moved (lowered n)) := by
  have hback := insert_of_remove hn hbeat hr
  obtain ⟨-, rfl⟩ := remove_eq_ok_iff.mp hr
  rw [validate_insert (numbered_renumber _) hb hback closed]
  have hmoved := leftInverse_moved s (lowered_raised n)
  cases (s.withBeats (s.beats.eraseIdx (n - 1))).validate closed with
  | ok u => rfl
  | error v => exact congrArg Except.error (hmoved v).symm

theorem valid_open_iff : s.Valid false ↔ s.Connected :=
  ⟨Valid.toConnected, fun h => ⟨h, nofun⟩⟩

/-- To add a beat to numbered ones is to give it the next number. -/
theorem add_eq_snoc (hn : ∀ i c, s.beats[i]? = some c → c.number = i + 1) (b : Beat) :
    s.add b = s.snoc { b with number := s.length + 1 } := by
  have hbeats : renumber s.beats = s.beats := renumber_eq_self hn
  unfold renumber at hbeats
  rw [add, withBeats, renumber, List.mapIdx_concat, hbeats]
  rfl

/-- One more beat passes the check just where it is sound and goes on from the last state. -/
theorem validate_add_iff (hs : s.validate false = .ok ()) (hb : b.isBlank = false) :
    (s.add b).validate false = .ok () ↔
      b.Sound ∧ ∀ state, s.lastState? = some state → b.startState? = some state := by
  have hcon : s.Connected := valid_open_iff.mp (validate_eq_ok_iff.mp hs)
  rw [validate_eq_ok_iff, valid_open_iff, add_eq_snoc hcon.numbered, connected_snoc_iff]
  constructor
  · rintro ⟨-, -, h⟩
    exact h hb
  · exact fun h => ⟨hcon, rfl, fun _ => h⟩

/-- The last state is where the sequence ends, unless it ends in a blank beat. -/
theorem lastState?_eq_endState? (h : ∀ b, s.beats.getLast? = some b → b.isBlank = false) :
    s.lastState? = s.endState? := by
  induction s using snoc_induction with
  | nil s hnil => simp [lastState?, endState?, hnil]
  | snoc s b _ =>
    have hlast : (s.snoc b).beats.getLast? = some b := List.getLast?_concat
    rw [lastState?_snoc, h b hlast, endState?, hlast]
    rfl

/-- Blank beats do not count in the validity check. Where the beats of a sequence are numbered from
one, a blank beat that is put in anywhere or taken out leaves the verdict as it is, only that
numbers from there on shift. One more beat that is not blank is let through just where it has both
motions, with the end orientations that follow, and starts in the last state past blank beats. That
is the end state of the sequence unless the sequence ends in a blank beat. -/
theorem validate_skips_blanks (s : Sequence) :
    ((∀ i c, s.beats[i]? = some c → c.number = i + 1) → ∀ n b, b.isBlank = true →
      (1 ≤ n → n ≤ s.length + 1 → ∃ t, s.insert n b = .ok t ∧
        ∀ closed, t.validate closed = (s.validate closed).mapError (s.moved (raised n))) ∧
      (s.beat? n = some b → ∃ t, s.remove n = .ok t ∧
        ∀ closed, t.validate closed = (s.validate closed).mapError (s.moved (lowered n)))) ∧
    (s.validate false = .ok () → ∀ b, b.isBlank = false →
      ((s.add b).validate false = .ok () ↔
        b.Sound ∧ ∀ state, s.lastState? = some state → b.startState? = some state)) ∧
    ((∀ b, s.beats.getLast? = some b → b.isBlank = false) → s.lastState? = s.endState?) := by
  refine ⟨fun hn n b hb => ⟨fun h1 hle => ?_, fun hbeat => ?_⟩,
    fun hs b hb => validate_add_iff hs hb, lastState?_eq_endState?⟩
  · have hi : s.insert n b = .ok (s.withBeats (s.beats.insertIdx (n - 1) b)) :=
      insert_eq_ok_iff.mpr ⟨⟨h1, hle⟩, rfl⟩
    exact ⟨_, hi, validate_insert hn hb hi⟩
  · have hthere : (s.beat? n).isSome = true := by rw [hbeat, Option.isSome_some]
    have hr : s.remove n = .ok (s.withBeats (s.beats.eraseIdx (n - 1))) :=
      remove_eq_ok_iff.mpr ⟨isSome_beat?_iff.mp hthere, rfl⟩
    exact ⟨_, hr, validate_remove hn hb hbeat hr⟩

theorem validate_skips_blanks_jumping :
    (∃ t, jumping.insert 2 (.blank 0) = .ok t ∧
      t.validate true = .error (.locationDiscontinuity 4 .blue)) ∧
    (∃ t, jumping.remove 1 = .ok t ∧ t.validate true = .error (.locationDiscontinuity 2 .blue)) ∧
    (jumping.before 3).validate false = .ok () ∧
    ((jumping.before 3).add (jumping.beats.getD 2 (.blank 0))).validate false ≠ .ok () ∧
    (jumping.before 3).lastState? = (jumping.before 3).endState? := by
  have hnumbered : ∀ i b, jumping.beats[i]? = some b → b.number = i + 1 := by
    intro i b hb
    match i, hb with
    | 0, rfl | 1, rfl | 2, rfl => rfl
  have hopen : (jumping.before 3).validate false = .ok () := rfl
  obtain ⟨hskips, -, -⟩ := validate_skips_blanks jumping
  obtain ⟨-, hadd, hend⟩ := validate_skips_blanks (jumping.before 3)
  obtain ⟨t, hi, ht⟩ := (hskips hnumbered 2 (.blank 0) rfl).1 (by decide) (by decide)
  obtain ⟨u, hr, hu⟩ := (hskips hnumbered 1 (.blank 1) rfl).2 rfl
  refine ⟨⟨t, hi, ht true⟩, ⟨u, hr, hu true⟩, hopen, ?_, hend ?_⟩
  · intro hpasses
    -- the hands would have to be where they are, not where they were
    have hjump := ((hadd hopen _ rfl).mp hpasses).2 _ rfl
    exact absurd hjump (by decide)
  · rintro b ⟨⟩
    rfl

end Sequence

end KineticAlphabet
