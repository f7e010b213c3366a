import KineticAlphabet.Yaml.Scalar
/-!
YAML documents. Block collections are told by the columns of their items: a mapping or a list holds
the items that begin in its column, and what belongs to an item is indented more. Flow collections
stand in brackets and may go over any lines. Anchors, tags, directives, block scalars and keys with
a question mark are refused.
-/
namespace KineticAlphabet.Yaml

namespace Place

/-- How many bytes the text takes from a place on a line up to a column of that line. -/
def bytesUpTo (p : Place) (column : Nat) : Nat :=
  (String.ofList (p.rest.take (column - p.column))).utf8ByteSize

/-- The place behind the colon of a key, if the node between two places is one: it has to stand on
one line with its colon, which comes at most 1024 bytes after the key began. -/
def afterColon? (start p : Place) (inFlow : Bool) : Option Place :=
  let blanks := (p.rest.takeWhile fun c => c = ' ' || c = '\t').length
  let q := p.forward blanks false
  match q.rest with
  | ':' :: cs =>
    if q.line = start.line && start.bytesUpTo q.column ≤ 1024 && (inFlow || isGapNext cs) then
      some (q.forward 1 false)
    else none
  | _ => none

/-- Whether a block has no node here: at the end of the document, or where a line is indented as
little as the collection around it. -/
def isVacant (p : Place) (around : Option Nat) : Bool :=
  p.rest.isEmpty || p.atMarker || around.any fun column => p.isFresh && p.column ≤ column

def atDash (p : Place) : Bool :=
  match p.rest with
  | '-' :: cs => isGapNext cs
  | _ => false

def sees (p : Place) (c : Char) : Bool := p.rest.head? = some c

end Place

mutual

/-- A node of a flow collection, in which scalars keep a number of columns as they do in the block
around. -/
def flowNode : Nat → Nat → Place → Option (Node × Place)
  | 0, _, _ => none
  | fuel + 1, indent, p =>
    if p.atMarker then none
    else if p.sees '[' then flowItems fuel indent (p.forward 1 false) []
    else if p.sees '{' then flowEntries fuel indent (p.forward 1 false) []
    else p.scalar? true indent

/-- A node of a flow collection and, behind a colon, the value that it is the key of. -/
def flowEntry : Nat → Nat → Place → Option (Node × Option Node × Place)
  | 0, _, _ => none
  | fuel + 1, indent, p => do
    let (key, q) ← flowNode fuel indent p
    match p.afterColon? q true with
    | none => return (key, none, q)
    | some q => do
      let q ← q.next true
      if q.sees ',' || q.sees ']' || q.sees '}' then return (key, some .empty, q)
      else do
        let (value, q) ← flowNode fuel indent q
        return (key, some value, q)

/-- The further items of a list in brackets. An item with a colon is a mapping of one entry. -/
def flowItems : Nat → Nat → Place → List Node → Option (Node × Place)
  | 0, _, _, _ => none
  | fuel + 1, indent, p, done => do
    let p ← p.next true
    if p.sees ']' then return (.sequence done.reverse, p.forward 1 false)
    else do
      let (node, value?, q) ← flowEntry fuel indent p
      let item := value?.elim node fun value => .mapping [(node, value)]
      let q ← q.next true
      if q.sees ',' then flowItems fuel indent (q.forward 1 false) (item :: done)
      else if q.sees ']' then return (.sequence (item :: done).reverse, q.forward 1 false)
      else none

/-- The further entries of a mapping in braces. A key may stand without a value. -/
def flowEntries : Nat → Nat → Place → List (Node × Node) → Option (Node × Place)
  | 0, _, _, _ => none
  | fuel + 1, indent, p, done => do
    let p ← p.next true
    if p.sees '}' then return (.mapping done.reverse, p.forward 1 false)
    else do
      let (key, value?, q) ← flowEntry fuel indent p
      let entry := (key, value?.getD .empty)
      let q ← q.next true
      if q.sees ',' then flowEntries fuel indent (q.forward 1 false) (entry :: done)
      else if q.sees '}' then return (.mapping (entry :: done).reverse, q.forward 1 false)
      else none

end

mutual

/-- A node of a block, inside a collection whose items begin in some column. -/
def blockNode : Nat → Option Nat → Place → Option (Node × Place)
  | 0, _, _ => none
  | fuel + 1, around, p =>
    if p.isVacant around then some (.empty, p)
    else if p.atDash then if p.isFresh then blockItems fuel p.column false p [] else none
    else do
      let (node, q) ← blockLeaf fuel around p
      match p.afterColon? q false with
      | none => return (node, q)
      | some q => if p.isFresh then blockEntries fuel p.column node q [] else none

def blockLeaf : Nat → Option Nat → Place → Option (Node × Place)
  | 0, _, _ => none
  | fuel + 1, around, p =>
    let indent := around.elim 0 (· + 1)
    if p.sees '[' || p.sees '{' then flowNode fuel indent p else p.scalar? false indent

/-- The further items of a list that begin in a column, from a dash on. -/
def blockItems : Nat → Nat → Bool → Place → List Node → Option (Node × Place)
  | 0, _, _, _, _ => none
  | fuel + 1, column, inEntry, p, done => do
    let q ← (p.forward 1 true).next false
    let (item, q) ← blockNode fuel (some column) q
    let q ← q.next false
    let done := item :: done
    if q.rest.isEmpty || q.atMarker then return (.sequence done.reverse, q)
    else if !q.isFresh || column < q.column then none
    else if q.column < column then return (.sequence done.reverse, q)
    else if q.atDash then blockItems fuel column inEntry q done
    -- a list that is the value of a key may begin in the column of the key: the next key ends it
    else if inEntry then return (.sequence done.reverse, q)
    else none

/-- The further entries of a mapping that begin in a column, from behind the colon of a key on. -/
def blockEntries : Nat → Nat → Node → Place → List (Node × Node) → Option (Node × Place)
  | 0, _, _, _, _ => none
  | fuel + 1, column, key, p, done => do
    let q ← p.next false
    let (value, q) ←
      if q.isFresh && q.column = column && q.atDash then blockItems fuel column true q []
      else blockNode fuel (some column) q
    let q ← q.next false
    let done := (key, value) :: done
    if q.rest.isEmpty || q.atMarker then return (.mapping done.reverse, q)
    else if !q.isFresh || column < q.column then none
    else if q.column < column then return (.mapping done.reverse, q)
    else do
      let (key, r) ← blockLeaf fuel (some column) q
      let r ← q.afterColon? r false
      blockEntries fuel column key r done

end

/-- A text in which every line ends with a line feed: a carriage return, one with a line feed and
the mark U+0085 become one. The separators of lines and of paragraphs stay. -/
def normalize : List Char → List Char
  | [] => []
  | '\r' :: '\n' :: cs => '\n' :: normalize cs
  | c :: cs => (if c = '\r' || c.toNat = 0x85 then '\n' else c) :: normalize cs

def isPrintable (c : Char) : Bool :=
  let n := c.toNat
  n = 0x9 || n = 0xA || n = 0xD || (0x20 ≤ n && n ≤ 0x7E) || n = 0x85 || (0xA0 ≤ n && n ≤ 0xD7FF) ||
    (0xE000 ≤ n && n ≤ 0xFFFD) || 0x10000 ≤ n

namespace Place

def skipEnds : Nat → Place → Option Place
  | 0, _ => none
  | fuel + 1, p =>
    if p.column = 0 && p.atMarker && p.sees '.' then do
      let p ← (p.forward 3 false).next false
      skipEnds fuel p
    else some p

end Place

/-- The only document of a text, which is empty where nothing is written. -/
def Node.ofText? (text : String) : Option Node :=
  if !text.toList.all isPrintable then none
  else do
    let cs := normalize text.toList
    let fuel := 4 * cs.length + 8
    let p ← Place.next ⟨cs, 0, 0, true⟩ false
    let start ←
      if p.atMarker then if p.sees '-' then (p.forward 3 false).next false else none
      else some p
    let (node, q) ← blockNode fuel none start
    let q ← q.next false
    if q.rest.isEmpty then return node
    else if q.atMarker && q.sees '.' then do
      let q ← q.skipEnds fuel
      if q.rest.isEmpty then return node else none
    else none

end KineticAlphabet.Yaml
