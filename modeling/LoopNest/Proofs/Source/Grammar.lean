import LoopNest.Source.Parser

/-! The grammar of modules: which lists of placed tokens spell which paths, expressions, statements
and modules. An expression stands from its first to its last token; brackets around a single
expression leave no trace. -/
namespace LoopNest

namespace Lexeme

abbrev keyword (k : Keyword) (p : Span) : Lexeme := ⟨.keyword k, p⟩

abbrev symbol (s : Symbol) (p : Span) : Lexeme := ⟨.symbol s, p⟩

abbrev ident (name : String) (p : Span) : Lexeme := ⟨.ident name, p⟩

/-- Where the last token ends; `last` if there is none. -/
def stopAfter (last : Nat) (ls : List Lexeme) : Nat := ls.foldl (fun _ l => l.span.stop) last

@[simp] theorem stopAfter_nil (last : Nat) : stopAfter last [] = last := rfl

@[simp] theorem stopAfter_cons (last : Nat) (l : Lexeme) (ls : List Lexeme) :
    stopAfter last (l :: ls) = stopAfter l.span.stop ls := rfl

@[simp] theorem stopAfter_append (last : Nat) (ls ls' : List Lexeme) :
    stopAfter last (ls ++ ls') = stopAfter (stopAfter last ls) ls' := List.foldl_append

end Lexeme

/-- The keyword that starts a declaration. -/
def DeclKind.keyword : DeclKind → Keyword
  | .value => .value
  | .trait => .trait

namespace Grammar

open Lexeme

/-- Items of one kind, each after a separator. -/
inductive Repeated {α : Type} (sep : Symbol) (Item : List Lexeme → α → Prop) :
    List Lexeme → List α → Prop
  | nil : Repeated sep Item [] []
  | cons {ls rest : List Lexeme} {a : α} {as : List α} (p : Span) (h : Item ls a)
    (hrest : Repeated sep Item rest as) : Repeated sep Item (symbol sep p :: (ls ++ rest)) (a :: as)

inductive IsName : List Lexeme → String → Prop
  | ident (name : String) (p : Span) : IsName [ident name p] name

/-- A word of a path, which may be spelled like a keyword. -/
inductive IsSegment : List Lexeme → String → Prop
  | ident (name : String) (p : Span) : IsSegment [ident name p] name
  | keyword (k : Keyword) (p : Span) : IsSegment [keyword k p] k.text

inductive IsPath : List Lexeme → FieldPath → Prop
  | intro {ls rest : List Lexeme} {s : String} {ss : List String} (h : IsSegment ls s)
    (hrest : Repeated .dot IsSegment rest ss) : IsPath (ls ++ rest) (s :: ss)

/-- An axis vector in brackets. -/
inductive IsAxes : List Lexeme → Axes → Prop
  | none (p q : Span) : IsAxes [symbol .leftBracket p, symbol .rightBracket q] []
  | some {ls rest : List Lexeme} {n : String} {ns : List String} (p q : Span) (h : IsName ls n)
    (hrest : Repeated .comma IsName rest ns) :
    IsAxes (symbol .leftBracket p :: (ls ++ (rest ++ [symbol .rightBracket q])))
      (Axes.ofNames (n :: ns))

inductive IsDType : Lexeme → DType → Prop
  | integer (p : Span) : IsDType (ident "integer" p) .integer
  | float (p : Span) : IsDType (ident "float" p) .float
  | string (p : Span) : IsDType (ident "string" p) .string
  | boolean (p : Span) : IsDType (ident "boolean" p) .boolean

inductive IsLiteral : Token → Literal → Prop
  | integer (n : Int64) : IsLiteral (.int n) (.integer n)
  | float (x : Double) : IsLiteral (.float x) (.float x)
  | string (s : String) : IsLiteral (.str s) (.string s)
  | boolean (b : Bool) : IsLiteral (.keyword (.boolean b)) (.boolean b)

/-- The reduced axes of a reduction, if they are given. -/
inductive IsHint : List Lexeme → Option Axes → Prop
  | none : IsHint [] none
  | some {ls : List Lexeme} {a : Axes} (p : Span) (h : IsAxes ls a) :
    IsHint (symbol .comma p :: ls) (some a)

inductive IsExpr : List Lexeme → SourceExpr → Prop
  | constant {t : Token} {v : Literal} (p : Span) (h : IsLiteral t v) :
    IsExpr [⟨t, p⟩] (.constant p v)
  | input {ls : List Lexeme} {path : FieldPath} (p q : Span) (h : IsPath ls path) :
    IsExpr (keyword .input p :: symbol .dot q :: ls)
      (.input ⟨p.start, stopAfter q.stop ls⟩ path)
  | select {cs ts fs : List Lexeme} {c t f : SourceExpr} (p q r s z : Span) (hc : IsExpr cs c)
    (ht : IsExpr ts t) (hf : IsExpr fs f) :
    IsExpr (keyword .select p :: symbol .leftParen q :: (cs ++ symbol .comma r ::
      (ts ++ symbol .comma s :: (fs ++ [symbol .rightParen z])))) (.select (p.upTo z) c t f)
  | reduce {ls hs : List Lexeme} {arg : SourceExpr} {hint : Option Axes} (op : String)
    (p q r s z : Span) (h : IsExpr ls arg) (hhint : IsHint hs hint) :
    IsExpr (keyword .reduce p :: symbol .leftParen q :: ident op r :: symbol .comma s ::
      (ls ++ (hs ++ [symbol .rightParen z]))) (.reduce (p.upTo z) op hint arg)
  | group {ls : List Lexeme} {e : SourceExpr} (p z : Span) (h : IsExpr ls e) :
    IsExpr (symbol .leftParen p :: (ls ++ [symbol .rightParen z])) e
  | tuple {ls rest : List Lexeme} {e : SourceExpr} {es : List SourceExpr} (p z : Span)
    (h : IsExpr ls e) (hrest : Repeated .comma IsExpr rest es) (hes : es ≠ []) :
    IsExpr (symbol .leftParen p :: (ls ++ (rest ++ [symbol .rightParen z])))
      (.tuple (p.upTo z) (e :: es))
  | ref (name : String) (p : Span) : IsExpr [ident name p] (.ref p name)
  | callNone (func : String) (p q z : Span) :
    IsExpr [ident func p, symbol .leftParen q, symbol .rightParen z] (.call (p.upTo z) func [])
  | call {ls rest : List Lexeme} {e : SourceExpr} {es : List SourceExpr} (func : String)
    (p q z : Span) (h : IsExpr ls e) (hrest : Repeated .comma IsExpr rest es) :
    IsExpr (ident func p :: symbol .leftParen q :: (ls ++ (rest ++ [symbol .rightParen z])))
      (.call (p.upTo z) func (e :: es))

inductive IsStatement : List Lexeme → Parser.Statement → Prop
  | input {ps as : List Lexeme} {path : FieldPath} {a : Axes} {d : Lexeme} {t : DType} (p q : Span)
    (hpath : IsPath ps path) (haxes : IsAxes as a) (hdtype : IsDType d t) :
    IsStatement (keyword .input p :: (ps ++ symbol .colon q :: (as ++ [d])))
      (.input ⟨path, a, t, p.upTo d.span⟩)
  | declaration {ls : List Lexeme} {body : SourceExpr} (kind : DeclKind) (name : String)
    (p q r : Span) (h : IsExpr ls body) :
    IsStatement (keyword kind.keyword p :: ident name q :: symbol .equals r :: ls)
      (.declaration ⟨name, kind, body, ⟨p.start, stopAfter r.stop ls⟩⟩)

inductive IsStatements : List Lexeme → List Parser.Statement → Prop
  | nil : IsStatements [] []
  | cons {ls rest : List Lexeme} {s : Parser.Statement} {ss : List Parser.Statement}
    (h : IsStatement ls s) (hrest : IsStatements rest ss) : IsStatements (ls ++ rest) (s :: ss)

/-- The tokens of a text of that many bytes spell the module. -/
inductive IsModule (length : Nat) : List Lexeme → SourceModule → Prop
  | intro {ls : List Lexeme} {ss : List Parser.Statement} (h : IsStatements ls ss) :
    IsModule length ls
      ⟨Parser.inputsOf ss, Parser.declarationsOf ss, Parser.moduleSpan length ls⟩

end Grammar
end LoopNest
