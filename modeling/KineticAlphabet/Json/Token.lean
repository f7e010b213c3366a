import KineticAlphabet.Json.Number
/-!
The tokens of a JSON text. A text that stops being JSON inside a token ends there with the token
`bad`, so the tokens in front of a fault are kept.
-/
namespace KineticAlphabet.Json

/-- A token. A text is `none` where its escapes name no character, which only matters to who wants
to know the text. -/
inductive Token
  | openArr
  | closeArr
  | openObj
  | closeObj
  | comma
  | colon
  | null
  | bool (b : Bool)
  | number (n : Number)
  | text (s : Option String)
  | bad

/-- A part of a text in quotes: a character, or the code unit of an escape. -/
inductive TextUnit
  | char (c : Char)
  | code (n : Nat)

namespace TextUnit

def isLeading (n : Nat) : Bool := 0xD800 ≤ n && n ≤ 0xDBFF

def isTrailing (n : Nat) : Bool := 0xDC00 ≤ n && n ≤ 0xDFFF

/-- The characters of text units. A code unit of a pair must be followed by its partner. -/
def chars? : List TextUnit → Option (List Char)
  | [] => some []
  | .char c :: us => (chars? us).map (c :: ·)
  | .code m :: .code n :: us =>
    if isLeading m then
      if isTrailing n then
        (chars? us).map (Char.ofNat (0x10000 + (m - 0xD800) * 0x400 + (n - 0xDC00)) :: ·)
      else none
    else if isTrailing m then none
    else (chars? (.code n :: us)).map (Char.ofNat m :: ·)
  | .code m :: us =>
    if isLeading m || isTrailing m then none else (chars? us).map (Char.ofNat m :: ·)

end TextUnit

namespace Token

def hexDigit? (c : Char) : Option Nat :=
  if c.isDigit then some (c.toNat - '0'.toNat)
  else if 'a' ≤ c && c ≤ 'f' then some (c.toNat - 'a'.toNat + 10)
  else if 'A' ≤ c && c ≤ 'F' then some (c.toNat - 'A'.toNat + 10)
  else none

def hex? (cs : List Char) : Option Nat :=
  cs.foldlM (fun n c => (hexDigit? c).map (16 * n + ·)) 0

def escaped? (c : Char) : Option Char :=
  match c with
  | '"' => some '"'
  | '\\' => some '\\'
  | '/' => some '/'
  | 'b' => some (Char.ofNat 8)
  | 'f' => some (Char.ofNat 12)
  | 'n' => some '\n'
  | 'r' => some '\r'
  | 't' => some '\t'
  | _ => none

def spanText? : List Char → Option (List TextUnit × List Char)
  | [] => none
  | '"' :: cs => some ([], cs)
  | '\\' :: 'u' :: c₁ :: c₂ :: c₃ :: c₄ :: cs => do
    let n ← hex? [c₁, c₂, c₃, c₄]
    let (us, rest) ← spanText? cs
    return (.code n :: us, rest)
  | '\\' :: c :: cs => do
    let e ← escaped? c
    let (us, rest) ← spanText? cs
    return (.char e :: us, rest)
  | c :: cs =>
    if c.toNat < 32 || c = '\\' then none
    else do
      let (us, rest) ← spanText? cs
      return (.char c :: us, rest)

def isGap (c : Char) : Bool := c = ' ' || c = '\t' || c = '\n' || c = '\r'

/-- The token at the front of a text without gaps there, and the rest. -/
def span (c : Char) (cs : List Char) : Token × List Char :=
  match c, cs with
  | '[', cs => (.openArr, cs)
  | ']', cs => (.closeArr, cs)
  | '{', cs => (.openObj, cs)
  | '}', cs => (.closeObj, cs)
  | ',', cs => (.comma, cs)
  | ':', cs => (.colon, cs)
  | 'n', 'u' :: 'l' :: 'l' :: cs => (.null, cs)
  | 't', 'r' :: 'u' :: 'e' :: cs => (.bool true, cs)
  | 'f', 'a' :: 'l' :: 's' :: 'e' :: cs => (.bool false, cs)
  | '"', cs =>
    match spanText? cs with
    | some (us, rest) => (.text ((TextUnit.chars? us).map String.ofList), rest)
    | none => (.bad, [])
  | c, cs =>
    match Numeral.span? (c :: cs) with
    | some (n, rest) => (.number n.value, rest)
    | none => (.bad, [])

def take : Nat → List Char → List Token
  | 0, _ => []
  | n + 1, cs =>
    match cs.dropWhile isGap with
    | [] => []
    | c :: cs =>
      let (t, rest) := span c cs
      t :: take n rest

/-- The tokens of a text. None is empty, so a text has no more tokens than characters. -/
def ofText (cs : List Char) : List Token := take cs.length cs

end Token

end KineticAlphabet.Json
