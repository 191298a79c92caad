import LoopNest.Diagnostic
import LoopNest.Double.Layout

/-! The words of the module text format. -/
namespace LoopNest

inductive Keyword where
  | input
  | value
  | trait
  | select
  | reduce
  | boolean (value : Bool)
  deriving DecidableEq

namespace Keyword

def text : Keyword → String
  | .input => "input"
  | .value => "value"
  | .trait => "trait"
  | .select => "select"
  | .reduce => "reduce"
  | .boolean true => "true"
  | .boolean false => "false"

def all : List Keyword :=
  [.input, .value, .trait, .select, .reduce, .boolean true, .boolean false]

def ofText? (word : String) : Option Keyword := all.find? (·.text == word)

theorem ofText?_text (k : Keyword) : ofText? k.text = some k := by
  rcases k with _ | _ | _ | _ | _ | b
  case boolean => cases b <;> decide
  all_goals decide

end Keyword

inductive Symbol where
  | dot
  | colon
  | comma
  | equals
  | leftParen
  | rightParen
  | leftBracket
  | rightBracket
  deriving DecidableEq

namespace Symbol

def char : Symbol → Char
  | .dot => '.'
  | .colon => ':'
  | .comma => ','
  | .equals => '='
  | .leftParen => '('
  | .rightParen => ')'
  | .leftBracket => '['
  | .rightBracket => ']'

def all : List Symbol :=
  [.dot, .colon, .comma, .equals, .leftParen, .rightParen, .leftBracket, .rightBracket]

def ofChar? (c : Char) : Option Symbol := all.find? (·.char == c)

def text (s : Symbol) : String := String.singleton s.char

theorem ofChar?_char (s : Symbol) : ofChar? s.char = some s := by cases s <;> decide

end Symbol

inductive Token where
  | keyword (k : Keyword)
  | symbol (s : Symbol)
  | float (value : Double)
  | int (value : Int64)
  | str (value : String)
  | ident (name : String)
  deriving DecidableEq

namespace Token

/-- The form in messages: an identifier shows as its kind, a string between plain quotes. -/
def render : Token → String
  | .keyword k => k.text
  | .symbol s => s.text
  | .float x => x.render
  | .int n => toString n.toInt
  | .str s => "\"" ++ s ++ "\""
  | .ident _ => "<ident>"

end Token

/-- A token and where it stands. -/
structure Lexeme where
  token : Token
  span : Span
  deriving DecidableEq

/-- A stretch of text that is no token, and where it stands. -/
structure Stray where
  text : String
  span : Span
  deriving DecidableEq

def Stray.message (s : Stray) : String := "unexpected character: '" ++ s.text ++ "'"

end LoopNest
