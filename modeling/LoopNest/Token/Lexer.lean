import LoopNest.Double.Reader
import LoopNest.Token.Basic

/-! Cutting a source text into pieces: blanks and comments, tokens, and stray characters. Each piece
is the longest that starts at its place, and the pieces together are the whole text. -/
namespace LoopNest

/-- What a piece of text is. -/
inductive PieceKind where
  | blank
  | token (t : Token)
  | stray
  deriving DecidableEq

structure Piece where
  text : List Char
  kind : PieceKind
  deriving DecidableEq

namespace Lexer

def isBlank (c : Char) : Bool := c = ' ' || c = '\t' || c = '\r' || c = '\n'

def isWordStart (c : Char) : Bool := c.isAlpha || c = '_'

def isWordPart (c : Char) : Bool := c.isAlphanum || c = '_'

/-- A keyword or an identifier. -/
def wordToken (word : List Char) : Token :=
  let text := String.ofList word
  match Keyword.ofText? text with
  | some k => .keyword k
  | none => .ident text

/-- How many of the characters are digits in front. -/
def digitCount (cs : List Char) : Nat := (cs.takeWhile Char.isDigit).length

/-- The length of a point and the digits after it; zero without a digit. -/
def fractionLength : List Char → Nat
  | '.' :: cs => if digitCount cs = 0 then 0 else digitCount cs + 1
  | _ => 0

/-- The length of an exponent part; zero without a digit. -/
def exponentLength : List Char → Nat
  | c :: cs =>
    if c = 'e' ∨ c = 'E' then
      match cs with
      | '+' :: ds | '-' :: ds => if digitCount ds = 0 then 0 else digitCount ds + 2
      | ds => if digitCount ds = 0 then 0 else digitCount ds + 1
    else 0
  | [] => 0

/-- The length of an unsigned number in front, and whether it has a fraction or an exponent. -/
def numberLength (cs : List Char) : Nat × Bool :=
  let whole := digitCount cs
  let fraction := fractionLength (cs.drop whole)
  let exponent := exponentLength (cs.drop (whole + fraction))
  (whole + fraction + exponent, fraction + exponent != 0)

/-- The integer with that text, if it fits 64 bits. -/
def int64? (text : List Char) : Option Int64 :=
  let (negative, digits) := Double.takeSign text
  let magnitude : Int := Double.digitsValue digits
  let n := if negative then -magnitude else magnitude
  if Int64.minValue.toInt ≤ n ∧ n ≤ Int64.maxValue.toInt then some (Int64.ofInt n) else none

def numberKind (text : List Char) (isFloat : Bool) : PieceKind :=
  if isFloat then
    match Double.ofText? text with
    | some x => .token (.float x)
    | none => .stray
  else
    match int64? text with
    | some n => .token (.int n)
    | none => .stray

/-- How far a string goes after its opening quote, and whether it is closed. A backslash takes the
character after it along, unless that ends the line. -/
def stringLength : List Char → Nat × Bool
  | [] => (0, false)
  | '"' :: _ => (1, true)
  | '\\' :: c :: cs =>
    if c = '\n' then (0, false)
    else
      let (n, closed) := stringLength cs
      (n + 2, closed)
  | '\\' :: [] => (0, false)
  | _ :: cs =>
    let (n, closed) := stringLength cs
    (n + 1, closed)

/-- The characters between the quotes; only a quote and a backslash can be escaped. -/
def unescape? : List Char → Option (List Char)
  | [] => some []
  | '\\' :: c :: cs => if c = '"' ∨ c = '\\' then (unescape? cs).map (c :: ·) else none
  | '\\' :: [] => none
  | c :: cs => (unescape? cs).map (c :: ·)

def stringKind (inner : List Char) (closed : Bool) : PieceKind :=
  if closed then
    match unescape? inner with
    | some s => .token (.str (String.ofList s))
    | none => .stray
  else .stray

/-- The piece that starts with the character `c` before `cs`: how many characters of `cs` belong
to it, and what it is. -/
def pieceAt (c : Char) (cs : List Char) : Nat × PieceKind :=
  if isBlank c then ((cs.takeWhile isBlank).length, .blank)
  else if c = '#' then ((cs.takeWhile (· != '\n')).length, .blank)
  else if isWordStart c then
    ((cs.takeWhile isWordPart).length, .token (wordToken (c :: cs.takeWhile isWordPart)))
  else if c.isDigit then
    let (n, isFloat) := numberLength (c :: cs)
    (n - 1, numberKind (c :: cs.take (n - 1)) isFloat)
  else if c = '-' ∧ digitCount cs ≠ 0 then
    let (n, isFloat) := numberLength cs
    (n, numberKind (c :: cs.take n) isFloat)
  else if c = '"' then
    let (n, closed) := stringLength cs
    (n, stringKind (cs.take (n - 1)) closed)
  else
    match Symbol.ofChar? c with
    | some s => (0, .token (.symbol s))
    | none => (0, .stray)

/-- The pieces of a text after the `n` characters in front that belong to an earlier piece. -/
def piecesAfter : Nat → List Char → List Piece
  | _, [] => []
  | 0, c :: cs =>
    let (n, kind) := pieceAt c cs
    ⟨c :: cs.take n, kind⟩ :: piecesAfter n cs
  | n + 1, _ :: cs => piecesAfter n cs

/-- The pieces of a text, in order. -/
def pieces (cs : List Char) : List Piece := piecesAfter 0 cs

/-- The number of bytes of a text in UTF-8. -/
def byteLength (cs : List Char) : Nat := cs.foldl (fun n c => n + c.utf8Size) 0

/-- Each piece with its span, from an offset on. -/
def locate (offset : Nat) : List Piece → List (Piece × Span)
  | [] => []
  | p :: ps =>
    let stop := offset + byteLength p.text
    (p, ⟨offset, stop⟩) :: locate stop ps

def lexeme? : Piece × Span → Option Lexeme
  | (⟨_, .token t⟩, span) => some ⟨t, span⟩
  | _ => none

def stray? : Piece × Span → Option Stray
  | (⟨text, .stray⟩, span) => some ⟨String.ofList text, span⟩
  | _ => none

end Lexer

/-- The tokens and the stray stretches of a source text. -/
structure Scan where
  lexemes : List Lexeme
  strays : List Stray

def Scan.ofSource (source : String) : Scan :=
  let located := Lexer.locate 0 (Lexer.pieces source.toList)
  ⟨located.filterMap Lexer.lexeme?, located.filterMap Lexer.stray?⟩

namespace Lexer

theorem piecesAfter_eq_drop (n : Nat) (cs : List Char) :
    piecesAfter n cs = pieces (cs.drop n) := by
  induction cs generalizing n with
  | nil => cases n <;> rfl
  | cons c cs ih =>
    cases n with
    | zero => rfl
    | succ n => exact ih n

theorem pieces_cons (c : Char) (cs : List Char) :
    pieces (c :: cs) =
      ⟨c :: cs.take (pieceAt c cs).1, (pieceAt c cs).2⟩ :: pieces (cs.drop (pieceAt c cs).1) := by
  rw [← piecesAfter_eq_drop]
  rfl

end Lexer
end LoopNest
