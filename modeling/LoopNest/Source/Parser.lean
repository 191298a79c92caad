import LoopNest.Expr
import LoopNest.Token.Lexer

/-! Reading a module from its tokens. One token decides every alternative, so the first token that
cannot go on is where reading stops, and what was tried there in vain is what was expected. -/
namespace LoopNest
namespace Parser

/-- What can be looked for at a place of the text. -/
inductive Expectation where
  | literal
  | keyword (k : Keyword)
  | symbol (s : Symbol)
  | ident
  | endOfInput
  deriving DecidableEq

namespace Expectation

def text : Expectation → String
  | .literal => "something else"
  | .keyword k => "'" ++ k.text ++ "'"
  | .symbol s => "'" ++ s.text ++ "'"
  | .ident => "'<ident>'"
  | .endOfInput => "end of input"

def admits : Expectation → Token → Bool
  | .literal, .int _ | .literal, .float _ | .literal, .str _ => true
  | .literal, .keyword (.boolean _) => true
  | .keyword k, .keyword k' => k = k'
  | .symbol s, .symbol s' => s = s'
  | .ident, .ident _ => true
  | _, _ => false

/-- A list with `or` before its last item. -/
def listText : List String → String
  | [] => ""
  | [a] => a
  | [a, b] => a ++ ", or " ++ b
  | a :: rest => a ++ ", " ++ listText rest

end Expectation

/-- Why a token is refused. -/
inductive Complaint where
  | unexpected (expected : List Expectation)
  | typeName (name : String)
  deriving DecidableEq

/-- A refused token, or the end of the text, and why. -/
structure SyntaxError where
  found : Option Lexeme
  complaint : Complaint
  deriving DecidableEq

namespace SyntaxError

def foundText (e : SyntaxError) : String :=
  match e.found with
  | some l => "'" ++ l.token.render ++ "'"
  | none => "end of input"

def message (e : SyntaxError) : String :=
  match e.complaint with
  | .unexpected expected =>
    "found " ++ e.foundText ++ " expected " ++
      Expectation.listText (expected.map Expectation.text)
  | .typeName name =>
    "expected dtype (integer, float, string, boolean), found '" ++ name ++ "'"

/-- The span of the refused token, or the end of a text of that many bytes. -/
def span (length : Nat) (e : SyntaxError) : Span :=
  match e.found with
  | some l => l.span
  | none => .empty length

end SyntaxError

/-- The tokens left, what was tried in vain before the first of them, and where the last token
taken ends. -/
structure Cursor where
  rest : List Lexeme
  tried : List Expectation
  last : Nat

abbrev Reading := StateT Cursor (Except SyntaxError)

/-- Takes the next token if it is one of those looked for. -/
def offer (es : List Expectation) : Reading (Option Lexeme) := fun c =>
  match c.rest with
  | l :: rest =>
    if es.any (·.admits l.token) then .ok (some l, ⟨rest, [], l.span.stop⟩)
    else .ok (none, { c with tried := c.tried ++ es })
  | [] => .ok (none, { c with tried := c.tried ++ es })

/-- Refuses the next token. -/
def refuse {α : Type} : Reading α := fun c =>
  .error ⟨c.rest.head?, .unexpected c.tried⟩

def require {α : Type} : Option α → Reading α
  | some a => pure a
  | none => refuse

/-- Takes the next token, which has to be one of those looked for. -/
def expect (es : List Expectation) : Reading Lexeme := do
  require (← offer es)

/-- Requires the end of the text. -/
def endOfText : Reading Unit := fun c =>
  match c.rest with
  | [] => .ok ((), c)
  | l :: _ => .error ⟨some l, .unexpected (c.tried ++ [.endOfInput])⟩

/-- From a start to the end of the last token taken. -/
def spanFrom (start : Span) : Reading Span := fun c => .ok (⟨start.start, c.last⟩, c)

/-- The letters of a keyword or of an identifier. -/
def word (l : Lexeme) : String :=
  match l.token with
  | .keyword k => k.text
  | .ident name => name
  | t => t.render

def name : Reading String := do
  return word (← expect [.ident])

/-- A path segment may also be spelled like a keyword. -/
def segment : Reading String := do
  return word (← expect (.ident :: Keyword.all.map .keyword))

/-- The segments that go on after a segment. -/
def moreSegments : Nat → Reading (List String)
  | 0 => pure []
  | fuel + 1 => do
    match ← offer [.symbol .dot] with
    | some _ =>
      let s ← segment
      return s :: (← moreSegments fuel)
    | none => return []

def path (fuel : Nat) : Reading FieldPath := do
  let s ← segment
  return s :: (← moreSegments fuel)

/-- The names that go on after a name. -/
def moreNames : Nat → Reading (List String)
  | 0 => pure []
  | fuel + 1 => do
    match ← offer [.symbol .comma] with
    | some _ =>
      let n ← name
      return n :: (← moreNames fuel)
    | none => return []

/-- An axis vector in brackets. -/
def axes (fuel : Nat) : Reading Axes := do
  let _ ← expect [.symbol .leftBracket]
  match ← offer [.ident] with
  | some l =>
    let rest ← moreNames fuel
    let _ ← expect [.symbol .rightBracket]
    return Axes.ofNames (word l :: rest)
  | none =>
    let _ ← expect [.symbol .rightBracket]
    return []

def dtype : Reading DType := do
  let l ← expect [.ident]
  match DType.ofName? (word l) with
  | some t => return t
  | none => throw ⟨some l, .typeName (word l)⟩

/-- How an expression can start. -/
def exprStarts : List Expectation :=
  [.literal, .keyword .input, .keyword .select, .keyword .reduce, .symbol .leftParen, .ident]

mutual
/-- An expression, if one starts here. -/
def expr? : Nat → Reading (Option SourceExpr)
  | 0 => pure none
  | fuel + 1 => do
    match ← offer exprStarts with
    | none => return none
    | some l =>
      match l.token with
      | .int n => return some (.constant l.span (.integer n))
      | .float x => return some (.constant l.span (.float x))
      | .str s => return some (.constant l.span (.string s))
      | .keyword (.boolean b) => return some (.constant l.span (.boolean b))
      | .keyword .input =>
        let _ ← expect [.symbol .dot]
        let p ← path fuel
        return some (.input (← spanFrom l.span) p)
      | .keyword .select =>
        let _ ← expect [.symbol .leftParen]
        let cond ← require (← expr? fuel)
        let _ ← expect [.symbol .comma]
        let onTrue ← require (← expr? fuel)
        let _ ← expect [.symbol .comma]
        let onFalse ← require (← expr? fuel)
        let _ ← expect [.symbol .rightParen]
        return some (.select (← spanFrom l.span) cond onTrue onFalse)
      | .keyword .reduce =>
        let _ ← expect [.symbol .leftParen]
        let op ← name
        let _ ← expect [.symbol .comma]
        let arg ← require (← expr? fuel)
        match ← offer [.symbol .comma] with
        | some _ =>
          let reduced ← axes fuel
          let _ ← expect [.symbol .rightParen]
          return some (.reduce (← spanFrom l.span) op (some reduced) arg)
        | none =>
          let _ ← expect [.symbol .rightParen]
          return some (.reduce (← spanFrom l.span) op none arg)
      | .symbol .leftParen =>
        let first ← require (← expr? fuel)
        let rest ← moreExprs fuel
        let _ ← expect [.symbol .rightParen]
        if rest.isEmpty then return some first
        else return some (.tuple (← spanFrom l.span) (first :: rest))
      | .ident n =>
        match ← offer [.symbol .leftParen] with
        | none => return some (.ref l.span n)
        | some _ =>
          match ← expr? fuel with
          | some first =>
            let rest ← moreExprs fuel
            let _ ← expect [.symbol .rightParen]
            return some (.call (← spanFrom l.span) n (first :: rest))
          | none =>
            let _ ← expect [.symbol .rightParen]
            return some (.call (← spanFrom l.span) n [])
      | _ => refuse

/-- The expressions that go on after an expression. -/
def moreExprs : Nat → Reading (List SourceExpr)
  | 0 => pure []
  | fuel + 1 => do
    match ← offer [.symbol .comma] with
    | some _ =>
      let e ← require (← expr? fuel)
      return e :: (← moreExprs fuel)
    | none => return []
end

inductive Statement where
  | input (decl : DeclaredInput)
  | declaration (decl : Declaration Span)

def inputStatement (fuel : Nat) (start : Span) : Reading Statement := do
  let p ← path fuel
  let _ ← expect [.symbol .colon]
  let a ← axes fuel
  let t ← dtype
  return .input ⟨p, a, t, ← spanFrom start⟩

def declarationStatement (fuel : Nat) (kind : DeclKind) (start : Span) : Reading Statement := do
  let n ← name
  let _ ← expect [.symbol .equals]
  let body ← require (← expr? fuel)
  return .declaration ⟨n, kind, body, ← spanFrom start⟩

/-- A statement after the keyword that starts it. -/
def statement (fuel : Nat) (l : Lexeme) : Reading Statement :=
  match l.token with
  | .keyword .input => inputStatement fuel l.span
  | .keyword .value => declarationStatement fuel .value l.span
  | .keyword .trait => declarationStatement fuel .trait l.span
  | _ => refuse

def statementStarts : List Expectation :=
  [.keyword .input, .keyword .value, .keyword .trait]

/-- Statements up to the end of the text. -/
def statements : Nat → Reading (List Statement)
  | 0 => pure []
  | fuel + 1 => do
    match ← offer statementStarts with
    | some l =>
      let s ← statement fuel l
      return s :: (← statements fuel)
    | none =>
      endOfText
      return []

def inputsOf : List Statement → List DeclaredInput
  | [] => []
  | .input d :: rest => d :: inputsOf rest
  | .declaration _ :: rest => inputsOf rest

def declarationsOf : List Statement → List (Declaration Span)
  | [] => []
  | .input _ :: rest => declarationsOf rest
  | .declaration d :: rest => d :: declarationsOf rest

/-- From the first to the last token; at the end of a text without tokens. -/
def moduleSpan (length : Nat) (ls : List Lexeme) : Span :=
  match ls.head?, ls.getLast? with
  | some first, some last => first.span.upTo last.span
  | _, _ => .empty length

/-- The module that the tokens of a text of that many bytes spell. Every step of the reading takes
a token, so their number bounds the steps. -/
def parseLexemes (length : Nat) (ls : List Lexeme) : Except SyntaxError SourceModule := do
  let (ss, _) ← (statements (ls.length + 1)).run ⟨ls, [], 0⟩
  return ⟨inputsOf ss, declarationsOf ss, moduleSpan length ls⟩

end Parser

/-- What reading a source text gives: the module unless the syntax fails, the stray stretches, and
the syntax error. -/
structure SourceReading where
  length : Nat
  strays : List Stray
  result : Except Parser.SyntaxError SourceModule

namespace SourceReading

def ofSource (source : String) : SourceReading :=
  let scan := Scan.ofSource source
  ⟨source.utf8ByteSize, scan.strays, Parser.parseLexemes source.utf8ByteSize scan.lexemes⟩

def module? (r : SourceReading) : Option SourceModule := r.result.toOption

/-- All errors with their spans: stray text in order, then the syntax error. -/
def errors (r : SourceReading) : List (Span × String) :=
  r.strays.map (fun s => (s.span, s.message)) ++
    match r.result with
    | .ok _ => []
    | .error e => [(e.span r.length, e.message)]

end SourceReading
end LoopNest
