import KineticAlphabet.Json.Token
import KineticAlphabet.Yaml.Node
/-!
Places in a YAML text, and the scalars that begin there. A scalar may go over several lines: one
line feed between its parts counts as a blank, and of several breaks all but the first are kept.
-/
namespace KineticAlphabet.Yaml

/-- What is left of a text, with the line and column of its first character, and whether only
indentation, or the dash of a list, stands in front of it on its line. -/
structure Place where
  rest : List Char
  line : Nat
  column : Nat
  isFresh : Bool

/-- Whether a character ends a line: the line feed, or the separator of lines or of paragraphs. -/
def isBreak (c : Char) : Bool := c = '\n' || c.toNat = 0x2028 || c.toNat = 0x2029

def isOrderMark (c : Char) : Bool := c.toNat = 0xFEFF

def isGapNext : List Char → Bool
  | [] => true
  | c :: _ => c = ' ' || c = '\t' || isBreak c

def isMarker : List Char → Bool
  | '-' :: '-' :: '-' :: cs => isGapNext cs
  | '.' :: '.' :: '.' :: cs => isGapNext cs
  | _ => false

namespace Place

def atMarker (p : Place) : Bool := p.column = 0 && isMarker p.rest

/-- Blanks, comments and line breaks skipped, and byte order marks that begin a line. -/
def skip (inFlow inComment : Bool) (line column : Nat) (isFresh : Bool) :
    List Char → Option Place
  | [] => some ⟨[], line, column, isFresh⟩
  | c :: cs =>
    if isBreak c then skip inFlow false (line + 1) 0 true cs
    else if inComment then skip inFlow true line (column + 1) isFresh cs
    else if column = 0 && isOrderMark c then skip inFlow false line 1 isFresh cs
    else if c = ' ' then skip inFlow false line (column + 1) isFresh cs
    else if c = '\t' then
      -- in a block a tab must not indent a line
      if inFlow || !isFresh then skip inFlow false line (column + 1) isFresh cs else none
    else if c = '#' then skip inFlow true line (column + 1) isFresh cs
    else some ⟨c :: cs, line, column, isFresh⟩

def next (p : Place) (inFlow : Bool) : Option Place :=
  skip inFlow false p.line p.column p.isFresh p.rest

def forward (p : Place) (n : Nat) (isFresh : Bool) : Place :=
  ⟨p.rest.drop n, p.line, p.column + n, isFresh⟩

end Place

/-- What joins two parts of a scalar: the blanks between them on a line, or what is left of the line
breaks. A line feed alone counts as a blank, and one in front of other breaks is left out. -/
def joint (blanks breaks : List Char) : List Char :=
  match breaks with
  | [] => blanks
  | ['\n'] => [' ']
  | '\n' :: breaks => breaks
  | breaks => breaks

def isFlowMark (c : Char) : Bool := c = ',' || c = '[' || c = ']' || c = '{' || c = '}'

/-- A plain scalar, newest character first, with the blanks and the line breaks since, newest first
too. -/
def spanPlain (inFlow : Bool) (indent : Nat) (done blanks breaks : List Char) (line column : Nat) :
    List Char → Option (String × Place)
  | [] => some (String.ofList done.reverse, ⟨[], line, column, !breaks.isEmpty⟩)
  | c :: cs =>
    let isBroken := !breaks.isEmpty
    let stop := some (String.ofList done.reverse, ⟨c :: cs, line, column, isBroken⟩)
    if isBreak c then spanPlain inFlow indent done [] (c :: breaks) (line + 1) 0 cs
    else if c = ' ' || c = '\t' then
      if !isBroken then spanPlain inFlow indent done (c :: blanks) [] line (column + 1) cs
      -- no tab among the columns that the lines of the scalar keep
      else if c = '\t' && column < indent then none
      else spanPlain inFlow indent done [] breaks line (column + 1) cs
    else if isBroken && !inFlow && column < indent then stop
    else if isBroken && column = 0 && isMarker (c :: cs) then stop
    else if c = '#' && (isBroken || !blanks.isEmpty) then stop
    else if c = ':' && isGapNext cs then stop
    else if inFlow && isFlowMark c then stop
    else if inFlow && c = ':' && cs.head?.any (fun d => isFlowMark d || d = '?') then none
    else
      let joined := (joint blanks.reverse breaks.reverse).reverse ++ done
      spanPlain inFlow indent (c :: joined) [] [] line (column + 1) cs

/-- A scalar in single quotes, in which a quote is written twice. -/
def spanSingle (done blanks breaks : List Char) (line column : Nat) :
    List Char → Option (String × Place)
  | [] => none
  | c :: cs =>
    let joined := (joint blanks.reverse breaks.reverse).reverse ++ done
    if column = 0 && isMarker (c :: cs) then none
    else if isBreak c then spanSingle done [] (c :: breaks) (line + 1) 0 cs
    else if c = ' ' || c = '\t' then
      if breaks.isEmpty then spanSingle done (c :: blanks) [] line (column + 1) cs
      else spanSingle done [] breaks line (column + 1) cs
    else if c = '\x27' then
      match cs with
      | '\x27' :: cs => spanSingle ('\x27' :: joined) [] [] line (column + 2) cs
      | cs => some (String.ofList joined.reverse, ⟨cs, line, column + 1, false⟩)
    else spanSingle (c :: joined) [] [] line (column + 1) cs

def escaped? (c : Char) : Option Char :=
  match c with
  | '0' => some (Char.ofNat 0)
  | 'a' => some (Char.ofNat 7)
  | 'b' => some (Char.ofNat 8)
  | 't' => some '\t'
  | '\t' => some '\t'
  | 'n' => some '\n'
  | 'v' => some (Char.ofNat 11)
  | 'f' => some (Char.ofNat 12)
  | 'r' => some '\r'
  | 'e' => some (Char.ofNat 27)
  | ' ' => some ' '
  | '"' => some '"'
  | '/' => some '/'
  | '\\' => some '\\'
  | 'N' => some (Char.ofNat 0x85)
  | '_' => some (Char.ofNat 0xA0)
  | 'L' => some (Char.ofNat 0x2028)
  | 'P' => some (Char.ofNat 0x2029)
  | _ => none

def hexChar? (ds : List Char) : Option Char := do
  let n ← Json.Token.hex? ds
  if n.isValidChar then return Char.ofNat n else none

/-- What stands between two parts of a scalar in double quotes. -/
inductive Gap
  | blanks (newestFirst : List Char)
  | breaks (newestFirst : List Char)
  | escaped (newestFirst : List Char)

namespace Gap

def none : Gap := blanks []

/-- One more blank, which only counts where the line was not broken. -/
def addBlank (c : Char) : Gap → Gap
  | blanks cs => blanks (c :: cs)
  | gap => gap

def addBreak (c : Char) : Gap → Gap
  | blanks _ => breaks [c]
  | breaks cs => breaks (c :: cs)
  | escaped cs => escaped (c :: cs)

/-- What joins the parts. Of breaks behind an escaped one all are kept. -/
def joint : Gap → List Char
  | blanks cs => cs.reverse
  | breaks cs => Yaml.joint [] cs.reverse
  | escaped cs => cs.reverse

end Gap

/-- A scalar in double quotes, newest character first, with the gap since. A backslash at the end of
a line takes the line break away. -/
def spanDouble (done : List Char) (gap : Gap) (line column : Nat) :
    List Char → Option (String × Place)
  | [] => .none
  | '\\' :: 'x' :: a :: b :: cs => do
    let c ← hexChar? [a, b]
    spanDouble (c :: (gap.joint.reverse ++ done)) .none line (column + 4) cs
  | '\\' :: 'u' :: a :: b :: c :: d :: cs => do
    let c ← hexChar? [a, b, c, d]
    spanDouble (c :: (gap.joint.reverse ++ done)) .none line (column + 6) cs
  | '\\' :: 'U' :: a :: b :: c :: d :: e :: f :: g :: h :: cs => do
    let c ← hexChar? [a, b, c, d, e, f, g, h]
    spanDouble (c :: (gap.joint.reverse ++ done)) .none line (column + 10) cs
  | '\\' :: c :: cs =>
    if isBreak c then spanDouble (gap.joint.reverse ++ done) (.escaped []) (line + 1) 0 cs
    else do
      let e ← escaped? c
      spanDouble (e :: (gap.joint.reverse ++ done)) .none line (column + 2) cs
  | c :: cs =>
    if column = 0 && isMarker (c :: cs) then .none
    else if isBreak c then spanDouble done (gap.addBreak c) (line + 1) 0 cs
    else if c = ' ' || c = '\t' then spanDouble done (gap.addBlank c) line (column + 1) cs
    else
      let joined := gap.joint.reverse ++ done
      if c = '"' then some (String.ofList joined.reverse, ⟨cs, line, column + 1, false⟩)
      else spanDouble (c :: joined) .none line (column + 1) cs

def beginsPlain (inFlow : Bool) (c : Char) (cs : List Char) : Bool :=
  if c = '-' then !isGapNext cs
  else if c = '?' || c = ':' then !inFlow && !isGapNext cs
  else !(isFlowMark c || "#&*!|>'\"%@".toList.contains c || c.toNat = 0x60)

def Place.scalar? (p : Place) (inFlow : Bool) (indent : Nat) : Option (Node × Place) :=
  match p.rest with
  | [] => none
  | '"' :: cs => (spanDouble [] .none p.line (p.column + 1) cs).map fun (s, p) =>
      (.scalar false s, p)
  | '\x27' :: cs => (spanSingle [] [] [] p.line (p.column + 1) cs).map fun (s, p) =>
      (.scalar false s, p)
  | c :: cs =>
    if beginsPlain inFlow c cs then
      (spanPlain inFlow indent [] [] [] p.line p.column (c :: cs)).map fun (s, p) =>
        (.scalar true s, p)
    else none

end KineticAlphabet.Yaml
