import KineticAlphabet.Json.Basic
import KineticAlphabet.Json.Token
/-!
A JSON text as far as it can be read. Fields stay in the order of the text, so that a reader who
walks them meets the first fault first. A fault is a part of the document: `broken` stands where
the text stops being JSON and is always the last part, `unreadable` stands for what is well formed
but names no value.
-/
namespace KineticAlphabet.Json

/-- A JSON text as far as it can be read. A field without a key is one whose key is unreadable. -/
inductive Doc
  | null
  | bool (b : Bool)
  | int (n : Int)
  | float (x : Binary64)
  | str (s : String)
  | arr (items : List Doc)
  | obj (fields : List (Option String × Doc))
  | unreadable
  | broken

namespace Doc

/-- A container that is still open: what it holds so far, newest first, and for an object the key
read last. -/
inductive Frame
  | arr (done : List Doc)
  | obj (done : List (Option String × Doc)) (key : Option String)

/-- What may come next. -/
inductive Need
  | value
  | itemOrEnd
  | key
  | keyOrEnd
  | colon
  | commaOrEnd
deriving DecidableEq

namespace Frame

def add (v : Doc) : Frame → Frame
  | .arr done => .arr (v :: done)
  | .obj done key => .obj ((key, v) :: done) key

def close : Frame → Doc
  | .arr done => .arr done.reverse
  | .obj done _ => .obj done.reverse

end Frame

/-- A document that breaks off inside open containers. -/
def breakOff (need : Need) : List Frame → Doc
  | [] => .broken
  | f :: fs =>
    let innermost := match f with
      | .arr done => Frame.arr (.broken :: done)
      | .obj done key => Frame.obj ((if need = Need.value then key else none, .broken) :: done) key
    fs.foldl (fun d f => (f.add d).close) innermost.close

/-- What a token leads to: the end of the document, or more of it. -/
inductive Progress
  | finished (d : Doc)
  | ongoing (need : Need) (stack : List Frame)

def settle (v : Doc) : List Frame → Progress
  | [] => .finished v
  | f :: fs => .ongoing .commaOrEnd (f.add v :: fs)

def ofToken? : Token → Option Doc
  | .null => some .null
  | .bool b => some (.bool b)
  | .number (.int n) => some (.int n)
  | .number (.float x) => some (.float x)
  | .number .outOfRange => some .unreadable
  | .text s => some (s.elim .unreadable .str)
  | _ => none

def step? (need : Need) (stack : List Frame) (t : Token) : Option Progress :=
  match need, t, stack with
  | .itemOrEnd, .closeArr, f :: fs | .commaOrEnd, .closeArr, f@(.arr _) :: fs
  | .keyOrEnd, .closeObj, f :: fs | .commaOrEnd, .closeObj, f@(.obj _ _) :: fs =>
    some (settle f.close fs)
  | .value, .openArr, stack | .itemOrEnd, .openArr, stack =>
    some (.ongoing .itemOrEnd (.arr [] :: stack))
  | .value, .openObj, stack | .itemOrEnd, .openObj, stack =>
    some (.ongoing .keyOrEnd (.obj [] none :: stack))
  | .value, t, stack | .itemOrEnd, t, stack => (ofToken? t).map (settle · stack)
  | .key, .text s, .obj done _ :: fs | .keyOrEnd, .text s, .obj done _ :: fs =>
    some (.ongoing .colon (.obj done s :: fs))
  | .colon, .colon, stack => some (.ongoing .value stack)
  | .commaOrEnd, .comma, .arr done :: fs => some (.ongoing .value (.arr done :: fs))
  | .commaOrEnd, .comma, .obj done key :: fs => some (.ongoing .key (.obj done key :: fs))
  | _, _, _ => none

def build (need : Need) (stack : List Frame) : List Token → Doc × List Token
  | [] => (breakOff need stack, [])
  | t :: ts =>
    match step? need stack t with
    | some (.finished d) => (d, ts)
    | some (.ongoing need stack) => build need stack ts
    | none => (breakOff need stack, [])

def ofText (s : String) : Doc × Bool :=
  let (d, rest) := build .value [] (Token.ofText s.toList)
  (d, !rest.isEmpty)

mutual

def isIntact : Doc → Bool
  | .broken => false
  | .arr items => itemsIntact items
  | .obj fields => fieldsIntact fields
  | _ => true

def itemsIntact : List Doc → Bool
  | [] => true
  | d :: ds => isIntact d && itemsIntact ds

def fieldsIntact : List (Option String × Doc) → Bool
  | [] => true
  | (_, d) :: fs => isIntact d && fieldsIntact fs

end

end Doc

variable {α : Type}

/-- A field put into fields sorted by their names. A field of that name is replaced. -/
def putField (name : String) (a : α) : List (String × α) → List (String × α)
  | [] => [(name, a)]
  | (k, b) :: fs =>
    if name < k then (name, a) :: (k, b) :: fs
    else if name = k then (name, a) :: fs
    else (k, b) :: putField name a fs

theorem mem_putField {name : String} {a : α} {fs : List (String × α)} {p : String × α}
    (h : p ∈ putField name a fs) : p = (name, a) ∨ p ∈ fs := by
  induction fs with
  | nil => simpa [putField] using h
  | cons f fs ih =>
    obtain ⟨k, b⟩ := f
    rw [putField] at h
    split at h
    · simpa using h
    · split at h
      · rcases List.mem_cons.1 h with h | h
        · exact .inl h
        · exact .inr (List.mem_cons_of_mem _ h)
      · rcases List.mem_cons.1 h with h | h
        · exact .inr (h ▸ List.mem_cons_self)
        · exact (ih h).imp_right (List.mem_cons_of_mem _)

/-- Putting a field keeps the fields sorted. -/
theorem pairwise_putField (name : String) (a : α) {fs : List (String × α)}
    (h : fs.Pairwise (·.1 < ·.1)) : (putField name a fs).Pairwise (·.1 < ·.1) := by
  induction fs with
  | nil => simp [putField]
  | cons f fs ih =>
    obtain ⟨k, b⟩ := f
    have hk := List.pairwise_cons.1 h
    rw [putField]
    split
    · next hlt =>
      refine List.pairwise_cons.2 ⟨fun p hp => ?_, h⟩
      rcases List.mem_cons.1 hp with rfl | hp
      · exact hlt
      · exact String.lt_trans hlt (hk.1 p hp)
    · next hlt =>
      split
      · next heq =>
        subst heq
        exact List.pairwise_cons.2 ⟨hk.1, hk.2⟩
      · next hne =>
        refine List.pairwise_cons.2 ⟨fun p hp => ?_, ih hk.2⟩
        rcases mem_putField hp with rfl | hp
        · exact Std.lt_of_le_of_ne (String.not_lt.1 hlt) fun e => hne e.symm
        · exact hk.1 p hp

namespace Doc

mutual

/-- The value that a document writes, if it is readable and nests no deeper than a limit. Fields are
sorted by their names, and of fields with one name the last counts. -/
def toJson? (limit : Nat) : Doc → Option Json
  | .null => some .null
  | .bool b => some (.bool b)
  | .int n => some (.int n)
  | .float x => some (.float x)
  | .str s => some (.str s)
  | .arr items =>
    match limit with
    | 0 => none
    | limit + 1 => (itemsToJson? limit items).map .arr
  | .obj fields =>
    match limit with
    | 0 => none
    | limit + 1 => (fieldsToJson? limit fields []).map .obj
  | .unreadable => none
  | .broken => none

def itemsToJson? (limit : Nat) : List Doc → Option (List Json)
  | [] => some []
  | d :: ds =>
    match toJson? limit d with
    | none => none
    | some v => (itemsToJson? limit ds).map (v :: ·)

def fieldsToJson? (limit : Nat) :
    List (Option String × Doc) → List (String × Json) → Option (List (String × Json))
  | [], done => some done
  | (none, _) :: _, _ => none
  | (some k, d) :: fs, done =>
    match toJson? limit d with
    | none => none
    | some v => fieldsToJson? limit fs (putField k v done)

end

end Doc

mutual

def toDoc : Json → Doc
  | .null => .null
  | .bool b => .bool b
  | .int n => .int n
  | .float x => .float x
  | .str s => .str s
  | .arr items => .arr (itemsToDoc items)
  | .obj fields => .obj (fieldsToDoc fields)

def itemsToDoc : List Json → List Doc
  | [] => []
  | v :: vs => toDoc v :: itemsToDoc vs

def fieldsToDoc : List (String × Json) → List (Option String × Doc)
  | [] => []
  | (k, v) :: fs => (some k, toDoc v) :: fieldsToDoc fs

end

end KineticAlphabet.Json
