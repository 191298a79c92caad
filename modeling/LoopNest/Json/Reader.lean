import LoopNest.Json.Basic

/-! Reading JSON texts. Each function takes the characters that are left and gives back what it
read with those after it. -/
namespace LoopNest.Json

def isBlank (c : Char) : Bool := c = ' ' || c = '\n' || c = '\t' || c = '\r'

def skipBlanks (cs : List Char) : List Char := cs.dropWhile isBlank

/-- The text after `word`, if it starts so. -/
def afterWord? : List Char → List Char → Option (List Char)
  | [], cs => some cs
  | w :: ws, c :: cs => if w = c then afterWord? ws cs else none
  | _ :: _, [] => none

/-- The rest after one or more digits. -/
def afterDigits? : List Char → Option (List Char)
  | c :: cs => if c.isDigit then some (cs.dropWhile Char.isDigit) else none
  | [] => none

/-- The rest after a whole number without needless leading zeros. -/
def afterWhole? : List Char → Option (List Char)
  | '0' :: cs =>
    match cs with
    | c :: _ => if c.isDigit then none else some cs
    | [] => some cs
  | cs => afterDigits? cs

def afterFraction? : List Char → Option (List Char)
  | '.' :: cs => afterDigits? cs
  | cs => some cs

def afterSign : List Char → List Char
  | '+' :: cs | '-' :: cs => cs
  | cs => cs

def afterExponent? : List Char → Option (List Char)
  | 'e' :: cs | 'E' :: cs => afterDigits? (afterSign cs)
  | cs => some cs

/-- A number, and the rest after it. -/
def number? (cs : List Char) : Option (Json × List Char) := do
  let unsigned := match cs with
    | '-' :: ds => ds
    | ds => ds
  let rest ← afterExponent? (← afterFraction? (← afterWhole? unsigned))
  some (.number (String.ofList (cs.take (cs.length - rest.length))), rest)

def hexValue? (c : Char) : Option Nat :=
  if c.isDigit then some (c.toNat - '0'.toNat)
  else if 'a'.toNat ≤ c.toNat ∧ c.toNat ≤ 'f'.toNat then some (c.toNat - 'a'.toNat + 10)
  else if 'A'.toNat ≤ c.toNat ∧ c.toNat ≤ 'F'.toNat then some (c.toNat - 'A'.toNat + 10)
  else none

/-- The code unit of four hexadecimal digits. -/
def codeUnit? (a b c d : Char) : Option Nat := do
  some (4096 * (← hexValue? a) + 256 * (← hexValue? b) + 16 * (← hexValue? c) + (← hexValue? d))

/-- What a backslash and one more character stand for. -/
def simpleEscape? (c : Char) : Option Char :=
  if c = '"' then some '"'
  else if c = '\\' then some '\\'
  else if c = '/' then some '/'
  else if c = 'b' then some '\x08'
  else if c = 'f' then some '\x0c'
  else if c = 'n' then some '\n'
  else if c = 'r' then some '\r'
  else if c = 't' then some '\t'
  else none

/-- The elements of a string between its quotes: characters, or code units by their number. -/
inductive Element where
  | char (c : Char)
  | unit (n : Nat)

/-- The elements up to the closing quote, and the rest after it. -/
def elements? : List Char → Option (List Element × List Char)
  | '"' :: cs => some ([], cs)
  | '\\' :: 'u' :: a :: b :: c :: d :: cs => do
    let n ← codeUnit? a b c d
    let (es, rest) ← elements? cs
    some (.unit n :: es, rest)
  | '\\' :: c :: cs => do
    let e ← simpleEscape? c
    let (es, rest) ← elements? cs
    some (.char e :: es, rest)
  | c :: cs =>
    if c.toNat < 0x20 ∨ c = '\\' then none
    else do
      let (es, rest) ← elements? cs
      some (.char c :: es, rest)
  | [] => none

def isHighSurrogate (n : Nat) : Bool := 0xd800 ≤ n && n < 0xdc00

def isLowSurrogate (n : Nat) : Bool := 0xdc00 ≤ n && n < 0xe000

/-- The text that the elements denote, unless a surrogate lacks its other half. -/
def joinElements : List Element → Option (List Char)
  | [] => some []
  | .char c :: es => (joinElements es).map (c :: ·)
  | .unit high :: .unit low :: es =>
    if isHighSurrogate high then
      if isLowSurrogate low then
        (joinElements es).map
          (Char.ofNat (0x10000 + (high - 0xd800) * 0x400 + (low - 0xdc00)) :: ·)
      else none
    else if isLowSurrogate high then none
    else (joinElements (.unit low :: es)).map (Char.ofNat high :: ·)
  | .unit n :: es =>
    if isHighSurrogate n || isLowSurrogate n then none
    else (joinElements es).map (Char.ofNat n :: ·)

/-- A string after its opening quote. -/
def string? (cs : List Char) : Option (Option String × List Char) := do
  let (es, rest) ← elements? cs
  some ((joinElements es).map String.ofList, rest)

/-- The rest after a colon. -/
def afterColon? (cs : List Char) : Option (List Char) :=
  match skipBlanks cs with
  | ':' :: rest => some rest
  | _ => none

mutual
/-- A value, and the rest after it. The first argument bounds the number of steps. -/
def value? : Nat → List Char → Option (Json × List Char)
  | 0, _ => none
  | fuel + 1, cs =>
    match skipBlanks cs with
    | '"' :: rest => (string? rest).map fun (s, r) => (.string s, r)
    | '[' :: rest =>
      match skipBlanks rest with
      | ']' :: r => some (.array [], r)
      | r => (items? fuel r).map fun (js, r) => (.array js, r)
    | '\x7b' :: rest =>
      match skipBlanks rest with
      | '\x7d' :: r => some (.object [], r)
      | r => (fields? fuel r).map fun (fs, r) => (.object fs, r)
    | 'n' :: rest => (afterWord? ['u', 'l', 'l'] rest).map fun r => (.null, r)
    | 't' :: rest => (afterWord? ['r', 'u', 'e'] rest).map fun r => (.boolean true, r)
    | 'f' :: rest => (afterWord? ['a', 'l', 's', 'e'] rest).map fun r => (.boolean false, r)
    | rest => number? rest

/-- The items of an array that is not empty, up to its bracket. -/
def items? : Nat → List Char → Option (List Json × List Char)
  | 0, _ => none
  | fuel + 1, cs => do
    let (j, rest) ← value? fuel cs
    match skipBlanks rest with
    | ',' :: r => (items? fuel r).map fun (js, r) => (j :: js, r)
    | ']' :: r => some ([j], r)
    | _ => none

/-- The fields of an object that is not empty, up to its bracket. -/
def fields? : Nat → List Char → Option (List (Option String × Json) × List Char)
  | 0, _ => none
  | fuel + 1, cs =>
    match skipBlanks cs with
    | '"' :: rest => do
      let (key, rest) ← string? rest
      let (j, rest) ← value? fuel (← afterColon? rest)
      match skipBlanks rest with
      | ',' :: r => (fields? fuel r).map fun (fs, r) => ((key, j) :: fs, r)
      | '\x7d' :: r => some ([(key, j)], r)
      | _ => none
    | _ => none
end

/-- The value of a text that holds one value and nothing else. -/
def ofText? (text : String) : Option Json :=
  let cs := text.toList
  match value? (2 * cs.length + 2) cs with
  | some (j, rest) => if (skipBlanks rest).isEmpty then some j else none
  | none => none

end LoopNest.Json
