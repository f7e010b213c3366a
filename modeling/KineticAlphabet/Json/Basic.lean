import KineticAlphabet.Number.Shortest
/-!
JSON values as this library writes them: fields in the order in which they are put, whole numbers
apart from doubles, and the two written forms, compact and indented.
-/
namespace KineticAlphabet

inductive Json
  | null
  | bool (b : Bool)
  | int (n : Int)
  | float (x : Binary64)
  | str (s : String)
  | arr (items : List Json)
  | obj (fields : List (String × Json))

namespace Json

def nat (n : Nat) : Json := .int n

def orNull {α : Type} (encode : α → Json) : Option α → Json
  | none => .null
  | some a => encode a

/-- A field that is left out where there is no value. -/
def field? {α : Type} (name : String) (encode : α → Json) : Option α → List (String × Json)
  | none => []
  | some a => [(name, encode a)]

def list {α : Type} (encode : α → Json) (as : List α) : Json := .arr (as.map encode)

/-- The text of a double: positional from `1e-5` on and below `1e16`, always with a fraction, and
otherwise with a power of ten. An equally near decimal goes to the even digit, and what is no finite
number is written as `null`. -/
def floatText : Binary64 → String
  | .nan => "null"
  | .ranked negative rank =>
    let sign := if negative then "-" else ""
    if rank.val = Binary64.infinityRank then "null"
    else if rank.val = 0 then sign ++ "0.0"
    else
      let d := Binary64.shortest .even rank
      if -5 < d.pointPlace ∧ d.pointPlace ≤ 16 then sign ++ d.positional true
      else sign ++ d.scientific

def intText (n : Int) : String :=
  let digits := String.ofList (Decimal.numeral n.natAbs)
  if n < 0 then "-" ++ digits else digits

/-- A character inside quotes: the quote, the backslash and control characters are escaped. -/
def escapeChar (c : Char) : List Char :=
  if c = '"' then ['\\', '"']
  else if c = '\\' then ['\\', '\\']
  else if c = '\n' then ['\\', 'n']
  else if c = '\r' then ['\\', 'r']
  else if c = '\t' then ['\\', 't']
  else if c.toNat = 8 then ['\\', 'b']
  else if c.toNat = 12 then ['\\', 'f']
  else if c.toNat < 32 then
    ['\\', 'u', '0', '0', Nat.digitChar (c.toNat / 16), Nat.digitChar (c.toNat % 16)]
  else [c]

def quote (s : String) : String := String.ofList ('"' :: s.toList.flatMap escapeChar ++ ['"'])

mutual

def compact : Json → String
  | .null => "null"
  | .bool b => if b then "true" else "false"
  | .int n => intText n
  | .float x => floatText x
  | .str s => quote s
  | .arr [] => "[]"
  | .arr (v :: vs) => "[" ++ compact v ++ compactItems vs ++ "]"
  | .obj [] => "\x7b\x7d"
  | .obj ((k, v) :: fs) => "\x7b" ++ quote k ++ ":" ++ compact v ++ compactFields fs ++ "\x7d"

def compactItems : List Json → String
  | [] => ""
  | v :: vs => "," ++ compact v ++ compactItems vs

def compactFields : List (String × Json) → String
  | [] => ""
  | (k, v) :: fs => "," ++ quote k ++ ":" ++ compact v ++ compactFields fs

end

/-- A new line at a depth of nesting, two blanks a level. -/
def newLine (depth : Nat) : String := String.ofList ('\n' :: List.replicate (2 * depth) ' ')

mutual

def indented (depth : Nat) : Json → String
  | .null => "null"
  | .bool b => if b then "true" else "false"
  | .int n => intText n
  | .float x => floatText x
  | .str s => quote s
  | .arr [] => "[]"
  | .arr (v :: vs) =>
    "[" ++ newLine (depth + 1) ++ indented (depth + 1) v ++ indentedItems (depth + 1) vs ++
      newLine depth ++ "]"
  | .obj [] => "\x7b\x7d"
  | .obj ((k, v) :: fs) =>
    "\x7b" ++ newLine (depth + 1) ++ quote k ++ ": " ++ indented (depth + 1) v ++
      indentedFields (depth + 1) fs ++ newLine depth ++ "\x7d"

def indentedItems (depth : Nat) : List Json → String
  | [] => ""
  | v :: vs => "," ++ newLine depth ++ indented depth v ++ indentedItems depth vs

def indentedFields (depth : Nat) : List (String × Json) → String
  | [] => ""
  | (k, v) :: fs =>
    "," ++ newLine depth ++ quote k ++ ": " ++ indented depth v ++ indentedFields depth fs

end

def pretty (v : Json) : String := indented 0 v

end Json

end KineticAlphabet
