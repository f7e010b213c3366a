import KineticAlphabet.Beat
import KineticAlphabet.Json.Doc
/-!
Sequences: a start position and the beats after it. Every edit numbers the beats from one again and
leaves name, start position and metadata alone. Metadata are fields sorted by their names, which the
type keeps.
-/
namespace KineticAlphabet

/-- Named values, sorted by their names. -/
structure Metadata where
  entries : List (String × Json)
  sorted : entries.Pairwise (·.1 < ·.1)

namespace Metadata

def empty : Metadata := ⟨[], .nil⟩

def insert (m : Metadata) (name : String) (v : Json) : Metadata :=
  ⟨Json.putField name v m.entries, Json.pairwise_putField name v m.sorted⟩

@[ext] theorem ext {m n : Metadata} (h : m.entries = n.entries) : m = n := by
  cases m; cases n; simp_all

end Metadata

/-- A start position and the beats after it. -/
structure Sequence where
  name : String
  startPosition : Option Beat
  beats : List Beat
  metadata : Metadata

namespace Sequence

def renumber (beats : List Beat) : List Beat :=
  beats.mapIdx fun i b => { b with number := i + 1 }

def empty (name : String) : Sequence :=
  { name, startPosition := none, beats := [], metadata := .empty }

/-- A sequence of beats, which are numbered from one after a start position numbered zero. -/
def ofBeats (name : String) (start : Option Beat) (beats : List Beat) : Sequence :=
  { name, startPosition := start.map fun b => { b with number := 0 }, beats := renumber beats,
    metadata := .empty }

def withBeats (s : Sequence) (beats : List Beat) : Sequence := { s with beats := renumber beats }

def withStartPosition (s : Sequence) (b : Beat) : Sequence :=
  { s with startPosition := some { b with number := 0 } }

def withMetadata (s : Sequence) (name : String) (v : Json) : Sequence :=
  { s with metadata := s.metadata.insert name v }

def length (s : Sequence) : Nat := s.beats.length

def beat? (s : Sequence) : Nat → Option Beat
  | 0 => none
  | n + 1 => s.beats[n]?

def word (s : Sequence) : String := String.join (s.beats.filterMap Beat.letter)

/-- The state after the last beat, or at the start position where there is no beat. -/
def endState? (s : Sequence) : Option (Duo Stance) :=
  match s.beats.getLast? with
  | some b => b.endState?
  | none => s.startPosition.bind Beat.endState?

/-- A beat number that a sequence of some length does not have. -/
structure OutOfRange where
  beat : Nat
  length : Nat
deriving DecidableEq, Repr

def OutOfRange.message (e : OutOfRange) : String :=
  s!"Beat {e.beat} out of range (sequence has {e.length} beats)"

def add (s : Sequence) (b : Beat) : Sequence := s.withBeats (s.beats ++ [b])

/-- One more beat, which takes a number; the numbers up to one above the last are possible. -/
def insert (s : Sequence) (n : Nat) (b : Beat) : Except OutOfRange Sequence :=
  if 1 ≤ n ∧ n ≤ s.length + 1 then .ok (s.withBeats (s.beats.insertIdx (n - 1) b))
  else .error ⟨n, s.length⟩

def remove (s : Sequence) (n : Nat) : Except OutOfRange Sequence :=
  if 1 ≤ n ∧ n ≤ s.length then .ok (s.withBeats (s.beats.eraseIdx (n - 1)))
  else .error ⟨n, s.length⟩

def update (s : Sequence) (n : Nat) (b : Beat) : Except OutOfRange Sequence :=
  if 1 ≤ n ∧ n ≤ s.length then .ok (s.withBeats (s.beats.set (n - 1) b))
  else .error ⟨n, s.length⟩

@[simp] theorem length_renumber (bs : List Beat) : (renumber bs).length = bs.length := by
  simp [renumber]

theorem getElem?_renumber (bs : List Beat) (i : Nat) :
    (renumber bs)[i]? = bs[i]?.map fun b => { b with number := i + 1 } := by
  simp [renumber, List.getElem?_mapIdx]

/-- Numbering changes nothing where the beats carry their places. -/
theorem renumber_eq_self {bs : List Beat} (h : ∀ i b, bs[i]? = some b → b.number = i + 1) :
    renumber bs = bs := by
  apply List.ext_getElem?
  intro i
  rw [getElem?_renumber]
  cases hb : bs[i]? with
  | none => rfl
  | some b =>
    have hn := h i b hb
    simp only [Option.map_some, ← hn]

@[simp] theorem length_withBeats (s : Sequence) (bs : List Beat) :
    (s.withBeats bs).length = bs.length := by
  simp [withBeats, length]

end Sequence

end KineticAlphabet
