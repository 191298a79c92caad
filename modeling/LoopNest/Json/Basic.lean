/-! JSON values and their texts. Fields of objects keep their order and may repeat. -/
namespace LoopNest

/-- A JSON value. A number is kept as its text. A string whose escapes name half of a surrogate
pair denotes no text and is `none`. -/
inductive Json where
  | null
  | boolean (value : Bool)
  | number (text : String)
  | string (text : Option String)
  | array (items : List Json)
  | object (fields : List (Option String × Json))

namespace Json

def text (s : String) : Json := .string (some s)

def record (fields : List (String × Json)) : Json :=
  .object (fields.map fun f => (some f.1, f.2))

def nat (n : Nat) : Json := .number (toString n)

def int (n : Int) : Json := .number (toString n)

/-- `null` for a missing value. -/
def optional {α : Type} (f : α → Json) : Option α → Json
  | some a => f a
  | none => .null

/-- Two lower-case hexadecimal digits. -/
def hexByte (n : Nat) : List Char := [Nat.digitChar (n / 16), Nat.digitChar (n % 16)]

/-- Quotes, backslashes and controls are escaped, all else stands for itself. -/
def escapeChar (c : Char) : List Char :=
  if c = '"' then ['\\', '"']
  else if c = '\\' then ['\\', '\\']
  else if c = '\x08' then ['\\', 'b']
  else if c = '\t' then ['\\', 't']
  else if c = '\n' then ['\\', 'n']
  else if c = '\x0c' then ['\\', 'f']
  else if c = '\r' then ['\\', 'r']
  else if c.toNat < 0x20 then ['\\', 'u', '0', '0'] ++ hexByte c.toNat
  else [c]

def escape (s : String) : String := "\"" ++ String.ofList (s.toList.flatMap escapeChar) ++ "\""

/-- A string that denotes no text is written as a lone escape. -/
def escape? : Option String → String
  | some s => escape s
  | none => "\"\\ud800\""

mutual
/-- The text without blanks. -/
def compact : Json → String
  | .null => "null"
  | .boolean b => if b then "true" else "false"
  | .number t => t
  | .string s => escape? s
  | .array items => "[" ++ ",".intercalate (compactItems items) ++ "]"
  | .object fields => "\x7b" ++ ",".intercalate (compactFields fields) ++ "\x7d"

def compactItems : List Json → List String
  | [] => []
  | j :: js => j.compact :: compactItems js

def compactFields : List (Option String × Json) → List String
  | [] => []
  | (key, j) :: fs => (escape? key ++ ":" ++ j.compact) :: compactFields fs
end

def indentation (depth : Nat) : String := String.ofList (List.replicate (2 * depth) ' ')

/-- Items on lines of their own between two brackets. -/
def bracketed (opening closing : String) (depth : Nat) (items : List String) : String :=
  if items.isEmpty then opening ++ closing
  else
    opening ++ "\n" ++ indentation (depth + 1)
      ++ (",\n" ++ indentation (depth + 1)).intercalate items
      ++ "\n" ++ indentation depth ++ closing

mutual
/-- The text with every item on a line of its own, two blanks deeper than its bracket. -/
def prettyAt (depth : Nat) : Json → String
  | .null => "null"
  | .boolean b => if b then "true" else "false"
  | .number t => t
  | .string s => escape? s
  | .array items => bracketed "[" "]" depth (prettyItems (depth + 1) items)
  | .object fields => bracketed "\x7b" "\x7d" depth (prettyFields (depth + 1) fields)

def prettyItems (depth : Nat) : List Json → List String
  | [] => []
  | j :: js => j.prettyAt depth :: prettyItems depth js

def prettyFields (depth : Nat) : List (Option String × Json) → List String
  | [] => []
  | (key, j) :: fs => (escape? key ++ ": " ++ j.prettyAt depth) :: prettyFields depth fs
end

def pretty (j : Json) : String := j.prettyAt 0

end Json
end LoopNest
