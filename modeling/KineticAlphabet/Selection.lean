import KineticAlphabet.Reversal
/-!
Selections of pictographs that may come next: sorted, filtered, or arranged in sections. Every sort
is stable and falls back to the order of the alphabet. The beats so far only matter where reversals
are counted.
-/
namespace KineticAlphabet

inductive SortMethod
  | type
  | endPosition
  | reversals
  | startPosition
deriving DecidableEq, Repr

namespace SortMethod

def all : List SortMethod := [type, endPosition, reversals, startPosition]

def name : SortMethod → String
  | type => "type"
  | endPosition => "end_position"
  | reversals => "reversals"
  | startPosition => "start_position"

def names : SortMethod → List String
  | type => ["type"]
  | endPosition => ["end_position", "endPosition"]
  | reversals => ["reversals"]
  | startPosition => ["start_position", "startPosition"]

def ofName? (s : String) : Option SortMethod := all.find? (·.names.contains s)

end SortMethod

/-- How many reversals there are, as far as filters tell them apart. -/
inductive ReversalBucket
  | continuous
  | oneReversal
  | twoReversals
deriving DecidableEq, Repr

namespace ReversalBucket

def all : List ReversalBucket := [continuous, oneReversal, twoReversals]

def name : ReversalBucket → String
  | continuous => "continuous"
  | oneReversal => "one_reversal"
  | twoReversals => "two_reversals"

def ofName? (s : String) : Option ReversalBucket := all.find? (·.name == s)

def ofCount : Nat → ReversalBucket
  | 0 => continuous
  | 1 => oneReversal
  | _ => twoReversals

end ReversalBucket

/-- Whether a section shows one group or several merged. -/
inductive SectionKind
  | plain
  | grouped
deriving DecidableEq, Repr

def SectionKind.name : SectionKind → String
  | plain => "section"
  | grouped => "grouped"

/-- A named part of a selection. -/
structure Section where
  name : String
  kind : SectionKind
  letterTypes : List LetterType
  pictographs : List Pictograph

def Section.push (s : Section) (p : Pictograph) : Section :=
  { s with pictographs := s.pictographs ++ [p] }

/-- Values under keys, in the order of the keys. -/
abbrev Groups (κ ν : Type) := List (κ × List ν)

/-- One more value behind those that have its key. -/
def Groups.push {κ ν : Type} [Ord κ] (key : κ) (value : ν) : Groups κ ν → Groups κ ν
  | [] => [(key, [value])]
  | (k, values) :: rest =>
    match compare key k with
    | .lt => (key, [value]) :: (k, values) :: rest
    | .eq => (k, values ++ [value]) :: rest
    | .gt => (k, values) :: push key value rest

namespace Selection

variable (context : List Beat)

def hasReversals (p : Pictograph) : Bool := 0 < countReversals p.motions context

/-- The reversals of each pictograph after the context. -/
def reversalCounts (ps : List Pictograph) : List Nat :=
  ps.map fun p => countReversals p.motions context

def compareLabels (a b : Option String) : Ordering := compare a b

/-- The order of the alphabet, with what is no letter at the end. -/
def compareLetters (a b : Pictograph) : Ordering :=
  let place (p : Pictograph) : Nat :=
    ((Letter.ofText? p.letterText).map Letter.order).getD Letter.all.length
  compare (place a) (place b)

/-- The order of a method for pictographs with their places in the selection, as far as it goes
without the alphabet. Pictographs with reversals come first; their counts stand at these places. -/
def compareEntries (counts : List Nat) (method : SortMethod) (a b : Pictograph × Nat) : Ordering :=
  let reverses (entry : Pictograph × Nat) : Bool := 0 < counts.getD entry.2 0
  match method with
  | .type => .eq
  | .endPosition => compareLabels a.1.endLabel? b.1.endLabel?
  | .startPosition => compareLabels a.1.startLabel? b.1.startLabel?
  | .reversals => compare (reverses b) (reverses a)

/-- The counts that a sort looks up. Only one by reversals needs them. -/
def sortCounts (ps : List Pictograph) : SortMethod → List Nat
  | .reversals => reversalCounts context ps
  | _ => []

/-- The selection in the order of a method. Pictographs that the method does not tell apart stay in
their order. -/
def sort (ps : List Pictograph) (method : SortMethod) : List Pictograph :=
  let counts := sortCounts context ps method
  let sorted := ps.zipIdx.mergeSort fun a b =>
    ((compareEntries counts method a b).then (compareLetters a.1 b.1)).isLE
  sorted.map Prod.fst

def ofTypes (types : List LetterType) (ps : List Pictograph) : List Pictograph :=
  ps.filter fun p => types.contains p.letterType

def endingIn (groups : List PositionGroup) (ps : List Pictograph) : List Pictograph :=
  ps.filter fun p => p.endGroup?.any groups.contains

def inBuckets (buckets : List ReversalBucket) (ps : List Pictograph) : List Pictograph :=
  let counted := ps.zip (reversalCounts context ps)
  (counted.filter fun entry => buckets.contains (.ofCount entry.2)).map Prod.fst

/-- The sections by letter type before anything is in them: the first three types have one each, the
others share the last. -/
def emptySections : List Section :=
  [.type1, .type2, .type3].map (fun t => ⟨t.name, .plain, [t], []⟩) ++
    [⟨"Types4-6", .grouped, [.type4, .type5, .type6], []⟩]

def sectionIndex : LetterType → Nat
  | .type1 => 0
  | .type2 => 1
  | .type3 => 2
  | _ => 3

/-- Sections by letter type, which are there even when they are empty. -/
def sectionsByType (ps : List Pictograph) : List Section :=
  ps.foldl (fun sections p => sections.modify (sectionIndex p.letterType) (·.push p)) emptySections

/-- Sections by the group of the start position, for the groups that occur. -/
def sectionsByStart (ps : List Pictograph) : List Section :=
  let groups : Groups (Option PositionGroup) Pictograph :=
    ps.foldl (fun groups p => groups.push p.startGroup? p) []
  groups.map fun (g, qs) => ⟨(g.map PositionGroup.name).getD "unpositioned", .plain, [], qs⟩

def organize (ps : List Pictograph) (method : SortMethod) : List Section :=
  let sorted := sort context ps method
  match method with
  | .startPosition => sectionsByStart sorted
  | _ => sectionsByType sorted

end Selection

end KineticAlphabet
