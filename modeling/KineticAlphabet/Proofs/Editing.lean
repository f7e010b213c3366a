import KineticAlphabet.Sequence.Basic
import Mathlib.Data.List.InsertIdx
/-!
Edits of sequences against edits of plain lists. Every edit numbers the beats anew, so after any run
of edits a beat carries its place and can be looked up by it. Numbers apart, the beats are those of
a list that was cut and joined at the places given. Numbered beats are what a numbering gives back,
which is why taking out a beat that was put in leads to the same sequence.
-/
namespace KineticAlphabet

/-- The beat with its number taken off. -/
def Beat.unnumbered (b : Beat) : Beat := { b with number := 0 }

namespace Sequence

/-- An edit of a sequence. To rebuild is to make a sequence of a name, the start position and the
beats that are there. -/
inductive Edit
  | add (b : Beat)
  | insert (n : Nat) (b : Beat)
  | remove (n : Nat)
  | update (n : Nat) (b : Beat)
  | start (b : Beat)
  | metadata (name : String) (v : Json)
  | rebuild (name : String)

namespace Edit

def apply (s : Sequence) : Edit → Except OutOfRange Sequence
  | add b => .ok (s.add b)
  | insert n b => s.insert n b
  | remove n => s.remove n
  | update n b => s.update n b
  | start b => .ok (s.withStartPosition b)
  | metadata name v => .ok (s.withMetadata name v)
  | rebuild name => .ok (.ofBeats name s.startPosition s.beats)

def OfBeats : Edit → Prop
  | add _ | insert _ _ | remove _ | update _ _ => True
  | start _ | metadata _ _ | rebuild _ => False

def beat? : Edit → Option Beat
  | add b | insert _ b | update _ b | start b => some b
  | remove _ | metadata _ _ | rebuild _ => none

/-- What an edit makes of a plain list of beats, which is cut in front of or behind the place that
it names. A list without that place stays as it is. -/
def onList (bs : List Beat) : Edit → List Beat
  | add b => bs ++ [b.unnumbered]
  | insert n b =>
    if 1 ≤ n ∧ n ≤ bs.length + 1 then bs.take (n - 1) ++ b.unnumbered :: bs.drop (n - 1) else bs
  | remove n => if 1 ≤ n ∧ n ≤ bs.length then bs.take (n - 1) ++ bs.drop n else bs
  | update n b =>
    if 1 ≤ n ∧ n ≤ bs.length then bs.take (n - 1) ++ b.unnumbered :: bs.drop n else bs
  | start _ | metadata _ _ | rebuild _ => bs

end Edit

/-- What sequences are made of at first: a name alone, or a start position and beats as well. -/
inductive Origin
  | empty (name : String)
  | ofBeats (name : String) (start : Option Beat) (beats : List Beat)

namespace Origin

def sequence : Origin → Sequence
  | empty name => .empty name
  | ofBeats name start beats => .ofBeats name start beats

def beats : Origin → List Beat
  | empty _ => []
  | ofBeats _ _ beats => beats

end Origin

variable {s t : Sequence} {b : Beat} {bs cs : List Beat} {n : Nat} {r : OutOfRange} {e : Edit}

/-- A sequence after an edit. One that is refused leaves the sequence as it is. -/
def step (s : Sequence) (e : Edit) : Sequence :=
  match e.apply s with
  | .ok t => t
  | .error _ => s

def edited (s : Sequence) (es : List Edit) : Sequence := es.foldl step s

/-- Every beat carries its place, from one, and the start position carries zero. -/
structure Numbered (s : Sequence) : Prop where
  start : ∀ b, s.startPosition = some b → b.number = 0
  beats : ∀ i b, s.beats[i]? = some b → b.number = i + 1

theorem unnumbered_renumber (bs : List Beat) :
    (renumber bs).map Beat.unnumbered = bs.map Beat.unnumbered := by
  apply List.ext_getElem?
  intro i
  rw [List.getElem?_map, getElem?_renumber, List.getElem?_map, Option.map_map]
  rfl

/-- The numbers that beats had before do not count. -/
theorem renumber_congr (h : bs.map Beat.unnumbered = cs.map Beat.unnumbered) :
    renumber bs = renumber cs := by
  have hrenumber (bs : List Beat) : renumber (bs.map Beat.unnumbered) = renumber bs := by
    apply List.ext_getElem?
    intro i
    rw [getElem?_renumber, List.getElem?_map, getElem?_renumber, Option.map_map]
    rfl
  rw [← hrenumber bs, h, hrenumber]

theorem numbered_renumber (bs : List Beat) (i : Nat) (b : Beat) (h : (renumber bs)[i]? = some b) :
    b.number = i + 1 := by
  rw [getElem?_renumber] at h
  obtain ⟨b', -, rfl⟩ := Option.map_eq_some_iff.mp h
  rfl

theorem Numbered.withBeats (h : s.Numbered) (bs : List Beat) : (s.withBeats bs).Numbered :=
  ⟨h.start, numbered_renumber bs⟩

theorem numbered_ofBeats (name : String) (start : Option Beat) (bs : List Beat) :
    (ofBeats name start bs).Numbered := by
  refine ⟨fun b hb => ?_, numbered_renumber bs⟩
  obtain ⟨b', -, rfl⟩ := Option.map_eq_some_iff.mp hb
  rfl

theorem Origin.numbered (o : Origin) : o.sequence.Numbered := by
  cases o with
  | empty name =>
    refine ⟨fun b hb => (Option.some_ne_none b hb.symm).elim, fun i b hb => ?_⟩
    simp [sequence, Sequence.empty] at hb
  | ofBeats name start bs => exact numbered_ofBeats name start bs

theorem Origin.unnumbered_beats (o : Origin) :
    o.sequence.beats.map Beat.unnumbered = o.beats.map Beat.unnumbered := by
  cases o with
  | empty name => rfl
  | ofBeats name start bs => exact unnumbered_renumber bs

section

variable {α ε : Type} {p : Prop} [Decidable p] {x y : α} {error error' : ε}

theorem ite_eq_ok_iff : (if p then .ok x else .error error : Except ε α) = .ok y ↔ p ∧ y = x := by
  by_cases hp : p <;> simp [hp, eq_comm]

theorem ite_eq_error_iff :
    (if p then .ok x else .error error : Except ε α) = .error error' ↔ ¬ p ∧ error' = error := by
  by_cases hp : p <;> simp [hp, eq_comm]

end

/-! What the three edits that name a beat make of a sequence, and where they are refused. -/

theorem insert_eq_ok_iff : s.insert n b = .ok t ↔
    (1 ≤ n ∧ n ≤ s.length + 1) ∧ t = s.withBeats (s.beats.insertIdx (n - 1) b) :=
  ite_eq_ok_iff

theorem remove_eq_ok_iff : s.remove n = .ok t ↔
    (1 ≤ n ∧ n ≤ s.length) ∧ t = s.withBeats (s.beats.eraseIdx (n - 1)) :=
  ite_eq_ok_iff

theorem update_eq_ok_iff : s.update n b = .ok t ↔
    (1 ≤ n ∧ n ≤ s.length) ∧ t = s.withBeats (s.beats.set (n - 1) b) :=
  ite_eq_ok_iff

theorem not_between_iff {m : Nat} : ¬ (1 ≤ n ∧ n ≤ m) ↔ n = 0 ∨ m < n := by
  omega

theorem insert_eq_error_iff :
    s.insert n b = .error r ↔ (n = 0 ∨ s.length + 1 < n) ∧ r = ⟨n, s.length⟩ := by
  rw [insert, ite_eq_error_iff, not_between_iff]

theorem remove_eq_error_iff :
    s.remove n = .error r ↔ (n = 0 ∨ s.length < n) ∧ r = ⟨n, s.length⟩ := by
  rw [remove, ite_eq_error_iff, not_between_iff]

theorem update_eq_error_iff :
    s.update n b = .error r ↔ (n = 0 ∨ s.length < n) ∧ r = ⟨n, s.length⟩ := by
  rw [update, ite_eq_error_iff, not_between_iff]

/-- An edit of the beats puts others in their place, which were there or come with it, and touches
nothing else. -/
theorem Edit.OfBeats.exists_withBeats (h : e.OfBeats) (ha : e.apply s = .ok t) :
    ∃ bs, t = s.withBeats bs ∧ ∀ b ∈ bs, b ∈ s.beats ∨ e.beat? = some b := by
  cases e with
  | add b =>
    refine ⟨_, (Except.ok.inj ha).symm, fun b' hb' => ?_⟩
    rcases List.mem_append.mp hb' with hb' | hb'
    · exact .inl hb'
    · exact .inr (congrArg some (List.mem_singleton.mp hb').symm)
  | insert n b =>
    obtain ⟨⟨-, hn⟩, rfl⟩ := insert_eq_ok_iff.mp ha
    refine ⟨_, rfl, fun b' hb' => ?_⟩
    rcases (List.mem_insertIdx (Nat.sub_le_of_le_add hn)).mp hb' with rfl | hb'
    · exact .inr rfl
    · exact .inl hb'
  | remove n =>
    obtain ⟨-, rfl⟩ := remove_eq_ok_iff.mp ha
    exact ⟨_, rfl, fun b' hb' => .inl (List.mem_of_mem_eraseIdx hb')⟩
  | update n b =>
    obtain ⟨-, rfl⟩ := update_eq_ok_iff.mp ha
    refine ⟨_, rfl, fun b' hb' => ?_⟩
    rcases List.mem_or_eq_of_mem_set hb' with hb' | rfl
    · exact .inl hb'
    · exact .inr rfl
  | start b => exact absurd h id
  | metadata name v => exact absurd h id
  | rebuild name => exact absurd h id

theorem Numbered.apply (h : s.Numbered) (ha : e.apply s = .ok t) : t.Numbered := by
  by_cases he : e.OfBeats
  · obtain ⟨bs, rfl, -⟩ := he.exists_withBeats ha
    exact h.withBeats bs
  · cases e with
    | start b =>
      cases ha
      refine ⟨fun b' hb' => ?_, h.beats⟩
      cases hb'
      rfl
    | metadata name v =>
      cases ha
      exact ⟨h.start, h.beats⟩
    | rebuild name =>
      cases ha
      exact numbered_ofBeats name _ _
    | add b => exact absurd trivial he
    | insert n b => exact absurd trivial he
    | remove n => exact absurd trivial he
    | update n b => exact absurd trivial he

theorem Numbered.step (h : s.Numbered) (e : Edit) : (s.step e).Numbered := by
  unfold Sequence.step
  split
  case h_1 t ha => exact h.apply ha
  case h_2 => exact h

theorem Numbered.edited (h : s.Numbered) (es : List Edit) : (s.edited es).Numbered := by
  unfold Sequence.edited
  induction es generalizing s with
  | nil => exact h
  | cons e es ih => exact ih (h.step e)

section

variable {α : Type}

theorem insertIdx_eq_take_drop {i : Nat} {l : List α} (a : α) (h : i ≤ l.length) :
    l.insertIdx i a = l.take i ++ a :: l.drop i := by
  induction l generalizing i with
  | nil =>
    obtain rfl := Nat.le_zero.mp h
    rfl
  | cons x l ih =>
    cases i with
    | zero => rfl
    | succ i => simp [ih (Nat.le_of_succ_le_succ h)]

end

theorem step_of_ok (h : e.apply s = .ok t) : s.step e = t := by
  rw [step, h]

theorem step_of_error (h : e.apply s = .error r) : s.step e = s := by
  rw [step, h]

/-- An edit does to the beats, their numbers apart, what it does to a plain list. -/
theorem unnumbered_step (s : Sequence) (e : Edit) :
    (s.step e).beats.map Beat.unnumbered = e.onList (s.beats.map Beat.unnumbered) := by
  cases e with
  | add b =>
    rw [step_of_ok rfl]
    exact (unnumbered_renumber _).trans List.map_append
  | insert n b =>
    simp only [Edit.onList, List.length_map]
    split
    case isTrue h =>
      have hn : n - 1 ≤ (s.beats.map Beat.unnumbered).length := by
        rw [List.length_map]
        exact Nat.sub_le_of_le_add h.2
      rw [step_of_ok (e := .insert n b) (insert_eq_ok_iff.mpr ⟨h, rfl⟩), withBeats,
        unnumbered_renumber, List.map_insertIdx, insertIdx_eq_take_drop _ hn]
    case isFalse h =>
      rw [step_of_error (e := .insert n b) (insert_eq_error_iff.mpr ⟨not_between_iff.mp h, rfl⟩)]
  | remove n =>
    simp only [Edit.onList, List.length_map]
    split
    case isTrue h =>
      rw [step_of_ok (e := .remove n) (remove_eq_ok_iff.mpr ⟨h, rfl⟩), withBeats,
        unnumbered_renumber, ← List.eraseIdx_map, List.eraseIdx_eq_take_drop_succ,
        Nat.sub_add_cancel h.1]
    case isFalse h =>
      rw [step_of_error (e := .remove n) (remove_eq_error_iff.mpr ⟨not_between_iff.mp h, rfl⟩)]
  | update n b =>
    simp only [Edit.onList, List.length_map]
    split
    case isTrue h =>
      have hn : n - 1 < (s.beats.map Beat.unnumbered).length := by
        rw [List.length_map]
        exact Nat.lt_of_lt_of_le (Nat.sub_lt h.1 Nat.one_pos) h.2
      rw [step_of_ok (e := .update n b) (update_eq_ok_iff.mpr ⟨h, rfl⟩), withBeats,
        unnumbered_renumber, List.map_set, List.set_eq_take_append_cons_drop, if_pos hn,
        Nat.sub_add_cancel h.1]
    case isFalse h =>
      rw [step_of_error (e := .update n b) (update_eq_error_iff.mpr ⟨not_between_iff.mp h, rfl⟩)]
  | start b => rfl
  | metadata name v => rfl
  | rebuild name => exact unnumbered_renumber s.beats

/-- So does a run of edits. -/
theorem unnumbered_edited (s : Sequence) (es : List Edit) :
    (s.edited es).beats.map Beat.unnumbered =
      es.foldl Edit.onList (s.beats.map Beat.unnumbered) := by
  unfold edited
  induction es generalizing s with
  | nil => rfl
  | cons e es ih => rw [List.foldl_cons, ih, unnumbered_step, List.foldl_cons]

/-- Numbered beats are looked up by their numbers. -/
theorem Numbered.beat?_eq_some_iff (h : s.Numbered) :
    s.beat? n = some b ↔ b ∈ s.beats ∧ b.number = n := by
  constructor
  · intro hb
    cases n with
    | zero => cases hb
    | succ i => exact ⟨List.mem_of_getElem? hb, h.beats i b hb⟩
  · rintro ⟨hb, rfl⟩
    obtain ⟨i, hi⟩ := List.mem_iff_getElem?.mp hb
    rw [h.beats i b hi]
    exact hi

theorem isSome_beat?_iff : (s.beat? n).isSome = true ↔ 1 ≤ n ∧ n ≤ s.length := by
  cases n with
  | zero => simp [beat?]
  | succ i =>
    have hthere : s.beats[i]?.isSome = true ↔ i < s.length := by simp [length]
    rw [beat?, hthere]
    omega

/-- Numbered beats are what a numbering gives back. -/
theorem withBeats_unnumbered (h : ∀ i b, s.beats[i]? = some b → b.number = i + 1)
    (hb : bs.map Beat.unnumbered = s.beats.map Beat.unnumbered) : s.withBeats bs = s := by
  rw [withBeats, renumber_congr hb, renumber_eq_self h]

/-- Taking out a beat that was put in leads back. -/
theorem Numbered.remove_of_insert (h : s.Numbered) (hi : s.insert n b = .ok t) :
    t.remove n = .ok s := by
  obtain ⟨⟨h1, hn⟩, rfl⟩ := insert_eq_ok_iff.mp hi
  have hlen : (s.withBeats (s.beats.insertIdx (n - 1) b)).length = s.length + 1 := by
    rw [length_withBeats, List.length_insertIdx]
    exact if_pos (Nat.sub_le_of_le_add hn)
  refine remove_eq_ok_iff.mpr ⟨⟨h1, hlen ▸ hn⟩, ?_⟩
  refine (withBeats_unnumbered h.beats ?_).symm
  rw [← List.eraseIdx_map, Sequence.withBeats, unnumbered_renumber, List.eraseIdx_map,
    List.eraseIdx_insertIdx_self]

/-- Putting back the beat that was taken out leads back. -/
theorem insert_of_remove (hn : ∀ i c, s.beats[i]? = some c → c.number = i + 1)
    (hb : s.beat? n = some b) (hr : s.remove n = .ok t) : t.insert n b = .ok s := by
  obtain ⟨⟨h1, hn'⟩, rfl⟩ := remove_eq_ok_iff.mp hr
  obtain ⟨i, rfl⟩ := Nat.exists_eq_add_of_le' h1
  obtain ⟨hi, hget⟩ := List.getElem?_eq_some_iff.mp hb
  have hlen : (s.withBeats (s.beats.eraseIdx i)).length + 1 = s.length := by
    rw [length_withBeats, List.length_eraseIdx_of_lt hi]
    exact Nat.sub_add_cancel (Nat.zero_lt_of_lt hi)
  refine insert_eq_ok_iff.mpr ⟨⟨h1, hlen ▸ hn'⟩, (withBeats_unnumbered hn ?_).symm⟩
  rw [Nat.add_sub_cancel, withBeats, List.map_insertIdx, unnumbered_renumber, ← List.map_insertIdx]
  obtain rfl := hget
  rw [List.insertIdx_eraseIdx_getElem hi]

/-- After any run of edits the beats are numbered and found by their numbers, and numbers apart they
are those of a plain list that went through the same edits. A further edit of the beats touches
nothing else, it is refused just where its number is none of those possible, and taking out what was
put in leads back. -/
theorem edited_refines (o : Origin) (es : List Edit) :
    let s := o.sequence.edited es
    s.Numbered ∧
    (∀ n b, s.beat? n = some b ↔ b ∈ s.beats ∧ b.number = n) ∧
    (∀ n, (s.beat? n).isSome = true ↔ 1 ≤ n ∧ n ≤ s.length) ∧
    s.beats.map Beat.unnumbered = es.foldl Edit.onList (o.beats.map Beat.unnumbered) ∧
    (∀ e t, e.OfBeats → Edit.apply s e = .ok t → t.name = s.name ∧ t.metadata = s.metadata ∧
      t.startPosition = s.startPosition) ∧
    (∀ n b r, s.insert n b = .error r ↔ (n = 0 ∨ s.length + 1 < n) ∧ r = ⟨n, s.length⟩) ∧
    (∀ n r, s.remove n = .error r ↔ (n = 0 ∨ s.length < n) ∧ r = ⟨n, s.length⟩) ∧
    (∀ n b r, s.update n b = .error r ↔ (n = 0 ∨ s.length < n) ∧ r = ⟨n, s.length⟩) ∧
    ∀ n b t, s.insert n b = .ok t → t.remove n = .ok s := by
  intro s
  have hs : s.Numbered := o.numbered.edited es
  refine ⟨hs, fun _ _ => hs.beat?_eq_some_iff, fun _ => isSome_beat?_iff, ?_, ?_,
    fun _ _ _ => insert_eq_error_iff, fun _ _ => remove_eq_error_iff,
    fun _ _ _ => update_eq_error_iff, fun _ _ _ => hs.remove_of_insert⟩
  · rw [unnumbered_edited, o.unnumbered_beats]
  · intro e t he ha
    obtain ⟨bs, rfl, -⟩ := he.exists_withBeats ha
    exact ⟨rfl, rfl, rfl⟩

end Sequence

end KineticAlphabet
