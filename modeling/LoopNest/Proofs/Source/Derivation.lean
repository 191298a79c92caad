import LoopNest.Proofs.Source.Printing

/-! Derivation trees of the grammar of modules, with a constructor for each production and the place
of every token. A tree spells tokens and stands for a module, and the grammar derives a module from
tokens if and only if some tree does both. -/
namespace LoopNest.Grammar

open Lexeme LoopNest.Parser

section Trees

/-- The items after the first one of a list, each with the place of the separator before it. -/
abbrev Tail (α : Type) := List (Span × α)

def Tail.lexemes {α : Type} (sep : Symbol) (spell : α → List Lexeme) (tail : Tail α) :
    List Lexeme :=
  tail.flatMap fun x => symbol sep x.1 :: spell x.2

structure Name where
  text : String
  place : Span

def Name.lexeme (n : Name) : Lexeme := ident n.text n.place

inductive Segment where
  | ident (name : String) (p : Span)
  | keyword (k : Keyword) (p : Span)

namespace Segment

def lexeme : Segment → Lexeme
  | .ident name p => Lexeme.ident name p
  | .keyword k p => Lexeme.keyword k p

def text : Segment → String
  | .ident name _ => name
  | .keyword k _ => k.text

end Segment

structure PathTree where
  first : Segment
  rest : Tail Segment

namespace PathTree

def lexemes (t : PathTree) : List Lexeme :=
  t.first.lexeme :: Tail.lexemes .dot (fun s => [s.lexeme]) t.rest

def path (t : PathTree) : FieldPath := t.first.text :: t.rest.map (·.2.text)

end PathTree

inductive AxesTree where
  | none (p q : Span)
  | some (p : Span) (first : Name) (rest : Tail Name) (q : Span)

namespace AxesTree

def lexemes : AxesTree → List Lexeme
  | .none p q => [symbol .leftBracket p, symbol .rightBracket q]
  | .some p first rest q => symbol .leftBracket p :: first.lexeme ::
      (Tail.lexemes .comma (fun n => [n.lexeme]) rest ++ [symbol .rightBracket q])

def axes : AxesTree → Axes
  | .none _ _ => []
  | .some _ first rest _ => Axes.ofNames (first.text :: rest.map (·.2.text))

end AxesTree

inductive TypeTree where
  | integer (p : Span)
  | float (p : Span)
  | string (p : Span)
  | boolean (p : Span)

namespace TypeTree

def lexeme : TypeTree → Lexeme
  | .integer p => ident "integer" p
  | .float p => ident "float" p
  | .string p => ident "string" p
  | .boolean p => ident "boolean" p

def dtype : TypeTree → DType
  | .integer _ => .integer
  | .float _ => .float
  | .string _ => .string
  | .boolean _ => .boolean

end TypeTree

/-- The derivation of an expression. -/
inductive ExprTree where
  | literal (v : Literal) (p : Span)
  | input (p q : Span) (path : PathTree)
  | select (p q : Span) (c : ExprTree) (r : Span) (t : ExprTree) (s : Span) (f : ExprTree)
    (z : Span)
  | reduce (p q : Span) (op : Name) (s : Span) (arg : ExprTree) (hint : Option (Span × AxesTree))
    (z : Span)
  | group (p : Span) (e : ExprTree) (z : Span)
  | tuple (p : Span) (first : ExprTree) (r : Span) (second : ExprTree)
    (rest : List (Span × ExprTree)) (z : Span)
  | callNone (func : Name) (q z : Span)
  | call (func : Name) (q : Span) (first : ExprTree) (rest : List (Span × ExprTree)) (z : Span)
  | ref (name : Name)

/-- Induction over derivations, with the items of a list as such. -/
@[elab_as_elim] theorem ExprTree.induction {motive : ExprTree → Prop}
    (literal : ∀ v p, motive (.literal v p)) (input : ∀ p q path, motive (.input p q path))
    (select : ∀ p q c r t s f z, motive c → motive t → motive f →
      motive (.select p q c r t s f z))
    (reduce : ∀ p q op s arg hint z, motive arg → motive (.reduce p q op s arg hint z))
    (group : ∀ p e z, motive e → motive (.group p e z))
    (tuple : ∀ p first r second rest z, motive first → motive second →
      (∀ x ∈ rest, motive x.2) → motive (.tuple p first r second rest z))
    (callNone : ∀ func q z, motive (.callNone func q z))
    (call : ∀ func q first rest z, motive first → (∀ x ∈ rest, motive x.2) →
      motive (.call func q first rest z))
    (ref : ∀ name, motive (.ref name)) (t : ExprTree) : motive t := by
  refine ExprTree.rec (motive_1 := motive) (motive_2 := fun l => ∀ x ∈ l, motive x.2)
    (motive_3 := fun x => motive x.2) literal input select reduce group tuple callNone call ref
    ?_ ?_ ?_ t
  · intro x h
    cases h
  · intro head tail hhead htail x h
    rcases List.mem_cons.1 h with rfl | h
    · exact hhead
    · exact htail x h
  · exact fun _ _ h => h

def hintLexemes : Option (Span × AxesTree) → List Lexeme
  | none => []
  | some (p, t) => symbol .comma p :: t.lexemes

namespace ExprTree

mutual
def lexemes : ExprTree → List Lexeme
  | .literal v p => [⟨v.token, p⟩]
  | .input p q path => keyword .input p :: symbol .dot q :: path.lexemes
  | .select p q c r t s f z => keyword .select p :: symbol .leftParen q :: (c.lexemes ++
      symbol .comma r :: (t.lexemes ++ symbol .comma s :: (f.lexemes ++ [symbol .rightParen z])))
  | .reduce p q op s arg hint z => keyword .reduce p :: symbol .leftParen q :: op.lexeme ::
      symbol .comma s :: (arg.lexemes ++ (hintLexemes hint ++ [symbol .rightParen z]))
  | .group p e z => symbol .leftParen p :: (e.lexemes ++ [symbol .rightParen z])
  | .tuple p first r second rest z => symbol .leftParen p :: (first.lexemes ++
      (symbol .comma r :: (second.lexemes ++ lexemesTail rest) ++ [symbol .rightParen z]))
  | .callNone func q z => [func.lexeme, symbol .leftParen q, symbol .rightParen z]
  | .call func q first rest z => func.lexeme :: symbol .leftParen q ::
      (first.lexemes ++ (lexemesTail rest ++ [symbol .rightParen z]))
  | .ref name => [name.lexeme]

def lexemesTail : List (Span × ExprTree) → List Lexeme
  | [] => []
  | (p, e) :: rest => symbol .comma p :: (e.lexemes ++ lexemesTail rest)
end

mutual
/-- The expression that a derivation stands for. A group leaves no trace in it. -/
def expr : ExprTree → SourceExpr
  | .literal v p => .constant p v
  | .input p q path => .input ⟨p.start, stopAfter q.stop path.lexemes⟩ path.path
  | .select p _ c _ t _ f z => .select (p.upTo z) c.expr t.expr f.expr
  | .reduce p _ op _ arg hint z =>
    .reduce (p.upTo z) op.text (hint.map fun h => h.2.axes) arg.expr
  | .group _ e _ => e.expr
  | .tuple p first _ second rest z =>
    .tuple (p.upTo z) (first.expr :: second.expr :: exprsTail rest)
  | .callNone func _ z => .call (func.place.upTo z) func.text []
  | .call func _ first rest z => .call (func.place.upTo z) func.text (first.expr :: exprsTail rest)
  | .ref name => .ref name.place name.text

def exprsTail : List (Span × ExprTree) → List SourceExpr
  | [] => []
  | (_, e) :: rest => e.expr :: exprsTail rest
end

theorem lexemesTail_eq (rest : Tail ExprTree) :
    lexemesTail rest = Tail.lexemes .comma lexemes rest := by
  induction rest with
  | nil => rfl
  | cons x rest ih => exact congrArg (fun ls => symbol .comma x.1 :: (x.2.lexemes ++ ls)) ih

theorem exprsTail_eq (rest : Tail ExprTree) : exprsTail rest = rest.map (·.2.expr) := by
  induction rest with
  | nil => rfl
  | cons x rest ih => exact congrArg (x.2.expr :: ·) ih

end ExprTree

/-- The derivation of a statement. -/
inductive StatementTree where
  | input (p : Span) (path : PathTree) (q : Span) (axes : AxesTree) (dtype : TypeTree)
  | declaration (kind : DeclKind) (p : Span) (name : Name) (r : Span) (body : ExprTree)

namespace StatementTree

def lexemes : StatementTree → List Lexeme
  | .input p path q axes dtype =>
    keyword .input p :: (path.lexemes ++ symbol .colon q :: (axes.lexemes ++ [dtype.lexeme]))
  | .declaration kind p name r body =>
    keyword kind.keyword p :: name.lexeme :: symbol .equals r :: body.lexemes

def statement : StatementTree → Parser.Statement
  | .input p path _ axes dtype =>
    .input ⟨path.path, axes.axes, dtype.dtype, p.upTo dtype.lexeme.span⟩
  | .declaration kind p name r body =>
    .declaration ⟨name.text, kind, body.expr, ⟨p.start, stopAfter r.stop body.lexemes⟩⟩

end StatementTree

/-- The derivation of a module. -/
abbrev ModuleTree := List StatementTree

namespace ModuleTree

def lexemes (t : ModuleTree) : List Lexeme := t.flatMap StatementTree.lexemes

/-- The module that a derivation stands for, in a text of that many bytes. Inputs and declarations
keep their order. -/
def module (length : Nat) (t : ModuleTree) : SourceModule where
  inputs := t.filterMap fun s => s.statement.input?
  declarations := t.filterMap fun s => s.statement.declaration?
  span := moduleSpan length (lexemes t)

/-- The brackets of `value v = (a)` leave a trace in the spans only. -/
example : module 13 [.declaration .value ⟨0, 5⟩ ⟨"v", ⟨6, 7⟩⟩ ⟨8, 9⟩
      (.group ⟨10, 11⟩ (.ref ⟨"a", ⟨11, 12⟩⟩) ⟨12, 13⟩)] =
    ⟨[], [⟨"v", .value, .ref ⟨11, 12⟩ "a", ⟨0, 13⟩⟩], ⟨0, 13⟩⟩ := rfl

end ModuleTree

end Trees

section Relation

variable {τ α : Type} {sep : Symbol} {Item : List Lexeme → α → Prop} {spell : τ → List Lexeme}
  {value : τ → α}

@[simp] theorem Tail.lexemes_nil : Tail.lexemes sep spell [] = [] := rfl

@[simp] theorem Tail.lexemes_cons (x : Span × τ) (tail : Tail τ) :
    Tail.lexemes sep spell (x :: tail) =
      symbol sep x.1 :: (spell x.2 ++ Tail.lexemes sep spell tail) := rfl

theorem repeated_tail {tail : Tail τ} (h : ∀ x ∈ tail, Item (spell x.2) (value x.2)) :
    Repeated sep Item (tail.lexemes sep spell) (tail.map fun x => value x.2) := by
  induction tail with
  | nil => exact .nil
  | cons x tail ih =>
    obtain ⟨hx, htail⟩ := List.forall_mem_cons.1 h
    exact .cons x.1 hx (ih htail)

theorem exists_tail {ls : List Lexeme} {as : List α} (h : Repeated sep Item ls as)
    (hitem : ∀ ls' a, ls'.length < ls.length → Item ls' a → ∃ t, spell t = ls' ∧ value t = a) :
    ∃ tail : Tail τ, tail.lexemes sep spell = ls ∧ (tail.map fun x => value x.2) = as := by
  induction h with
  | nil => exact ⟨[], rfl, rfl⟩
  | @cons ls rest a as p h hrest ih =>
    simp only [List.length_cons, List.length_append] at hitem
    obtain ⟨t, rfl, rfl⟩ := hitem ls a (by omega) h
    obtain ⟨tail, rfl, rfl⟩ := ih fun ls' a' hlt => hitem ls' a' (by omega)
    exact ⟨(p, t) :: tail, rfl, rfl⟩

theorem isSegment_iff {ls : List Lexeme} {s : String} :
    IsSegment ls s ↔ ∃ t : Segment, [t.lexeme] = ls ∧ t.text = s := by
  constructor
  · intro h
    cases h with
    | ident _ p => exact ⟨.ident s p, rfl, rfl⟩
    | keyword k p => exact ⟨.keyword k p, rfl, rfl⟩
  · rintro ⟨t, rfl, rfl⟩
    cases t with
    | ident n p => exact .ident n p
    | keyword k p => exact .keyword k p

theorem isName_iff {ls : List Lexeme} {n : String} :
    IsName ls n ↔ ∃ t : Name, [t.lexeme] = ls ∧ t.text = n := by
  constructor
  · intro h
    cases h with
    | ident _ p => exact ⟨⟨n, p⟩, rfl, rfl⟩
  · rintro ⟨t, rfl, rfl⟩
    exact .ident t.text t.place

theorem isPath_iff {ls : List Lexeme} {path : FieldPath} :
    IsPath ls path ↔ ∃ t : PathTree, t.lexemes = ls ∧ t.path = path := by
  constructor
  · rintro ⟨hfirst, hrest⟩
    obtain ⟨first, rfl, rfl⟩ := isSegment_iff.1 hfirst
    obtain ⟨rest, rfl, rfl⟩ := exists_tail hrest fun _ _ _ => isSegment_iff.1
    exact ⟨⟨first, rest⟩, rfl, rfl⟩
  · rintro ⟨⟨first, rest⟩, rfl, rfl⟩
    have hrest : Repeated .dot IsSegment (rest.lexemes .dot fun s => [s.lexeme])
        (rest.map fun x => x.2.text) := repeated_tail fun x _ => isSegment_iff.2 ⟨x.2, rfl, rfl⟩
    exact .intro (isSegment_iff.2 ⟨first, rfl, rfl⟩) hrest

theorem isAxes_iff {ls : List Lexeme} {a : Axes} :
    IsAxes ls a ↔ ∃ t : AxesTree, t.lexemes = ls ∧ t.axes = a := by
  constructor
  · intro h
    cases h with
    | none p q => exact ⟨.none p q, rfl, rfl⟩
    | some p q hfirst hrest =>
      obtain ⟨first, rfl, rfl⟩ := isName_iff.1 hfirst
      obtain ⟨rest, rfl, rfl⟩ := exists_tail hrest fun _ _ _ => isName_iff.1
      exact ⟨.some p first rest q, rfl, rfl⟩
  · rintro ⟨t, rfl, rfl⟩
    cases t with
    | none p q => exact .none p q
    | some p first rest q =>
      exact .some p q (isName_iff.2 ⟨first, rfl, rfl⟩)
        (repeated_tail fun x _ => isName_iff.2 ⟨x.2, rfl, rfl⟩)

theorem isDType_iff {l : Lexeme} {d : DType} :
    IsDType l d ↔ ∃ t : TypeTree, t.lexeme = l ∧ t.dtype = d := by
  constructor
  · intro h
    cases h with
    | integer p => exact ⟨.integer p, rfl, rfl⟩
    | float p => exact ⟨.float p, rfl, rfl⟩
    | string p => exact ⟨.string p, rfl, rfl⟩
    | boolean p => exact ⟨.boolean p, rfl, rfl⟩
  · rintro ⟨t, rfl, rfl⟩
    cases t with
    | integer p => exact .integer p
    | float p => exact .float p
    | string p => exact .string p
    | boolean p => exact .boolean p

theorem isHint_iff {ls : List Lexeme} {hint : Option Axes} :
    IsHint ls hint ↔
      ∃ t : Option (Span × AxesTree), hintLexemes t = ls ∧ (t.map fun h => h.2.axes) = hint := by
  constructor
  · intro h
    cases h with
    | none => exact ⟨none, rfl, rfl⟩
    | some p h =>
      obtain ⟨t, rfl, rfl⟩ := isAxes_iff.1 h
      exact ⟨some (p, t), rfl, rfl⟩
  · rintro ⟨t, rfl, rfl⟩
    cases t with
    | none => exact .none
    | some x => exact .some x.1 (isAxes_iff.2 ⟨x.2, rfl, rfl⟩)

theorem token_of_isLiteral {t : Token} {v : Literal} (h : IsLiteral t v) : v.token = t := by
  cases h <;> rfl

namespace ExprTree

theorem lexemes_tuple (p : Span) (first : ExprTree) (r : Span) (second : ExprTree)
    (rest : Tail ExprTree) (z : Span) : (tuple p first r second rest z).lexemes =
      symbol .leftParen p :: (first.lexemes ++
        (Tail.lexemes .comma lexemes ((r, second) :: rest) ++ [symbol .rightParen z])) := by
  rw [Tail.lexemes_cons, ← lexemesTail_eq]
  rfl

theorem lexemes_call (func : Name) (q : Span) (first : ExprTree) (rest : Tail ExprTree) (z : Span) :
    (call func q first rest z).lexemes = func.lexeme :: symbol .leftParen q ::
      (first.lexemes ++ (Tail.lexemes .comma lexemes rest ++ [symbol .rightParen z])) := by
  rw [← lexemesTail_eq]
  rfl

theorem expr_tuple (p : Span) (first : ExprTree) (r : Span) (second : ExprTree)
    (rest : Tail ExprTree) (z : Span) : (tuple p first r second rest z).expr =
      .tuple (p.upTo z) (first.expr :: ((r, second) :: rest).map fun x => x.2.expr) := by
  rw [List.map_cons, ← exprsTail_eq]
  rfl

theorem expr_call (func : Name) (q : Span) (first : ExprTree) (rest : Tail ExprTree) (z : Span) :
    (call func q first rest z).expr =
      .call (func.place.upTo z) func.text (first.expr :: rest.map fun x => x.2.expr) := by
  rw [← exprsTail_eq]
  rfl

theorem isExpr (t : ExprTree) : IsExpr t.lexemes t.expr := by
  induction t using ExprTree.induction with
  | literal v p => exact .constant p derives_literal
  | input p q path => exact .input p q (isPath_iff.2 ⟨path, rfl, rfl⟩)
  | select p q c r t s f z hc ht hf => exact .select p q r s z hc ht hf
  | reduce p q op s arg hint z harg =>
    exact .reduce op.text p q op.place s z harg (isHint_iff.2 ⟨hint, rfl, rfl⟩)
  | group p e z he => exact .group p z he
  | tuple p first r second rest z hfirst hsecond hrest =>
    rw [lexemes_tuple, expr_tuple]
    refine .tuple p z hfirst (repeated_tail ?_) (List.cons_ne_nil _ _)
    exact List.forall_mem_cons.2 ⟨hsecond, hrest⟩
  | callNone func q z => exact .callNone func.text func.place q z
  | call func q first rest z hfirst hrest =>
    rw [lexemes_call, expr_call]
    exact .call func.text func.place q z hfirst (repeated_tail hrest)
  | ref name => exact .ref name.text name.place

theorem exists_of_isExpr {ls : List Lexeme} {e : SourceExpr} (h : IsExpr ls e) :
    ∃ t : ExprTree, t.lexemes = ls ∧ t.expr = e := by
  -- the rules nest lists of expressions, so the induction is on the number of tokens
  induction hn : ls.length using Nat.strongRecOn generalizing ls e with
  | ind n ih =>
  subst hn
  cases h with
  | constant p h => exact ⟨.literal _ p, by rw [← token_of_isLiteral h]; rfl, rfl⟩
  | input p q h =>
    obtain ⟨path, rfl, rfl⟩ := isPath_iff.1 h
    exact ⟨.input p q path, rfl, rfl⟩
  | select p q r s z hc ht hf =>
    simp only [List.length_cons, List.length_append] at ih
    obtain ⟨c, rfl, rfl⟩ := ih _ (by omega) hc rfl
    obtain ⟨t, rfl, rfl⟩ := ih _ (by omega) ht rfl
    obtain ⟨f, rfl, rfl⟩ := ih _ (by omega) hf rfl
    exact ⟨.select p q c r t s f z, rfl, rfl⟩
  | reduce op p q r s z harg hhint =>
    simp only [List.length_cons, List.length_append] at ih
    obtain ⟨arg, rfl, rfl⟩ := ih _ (by omega) harg rfl
    obtain ⟨hint, rfl, rfl⟩ := isHint_iff.1 hhint
    exact ⟨.reduce p q ⟨op, r⟩ s arg hint z, rfl, rfl⟩
  | group p z h =>
    simp only [List.length_cons, List.length_append] at ih
    obtain ⟨e, rfl, rfl⟩ := ih _ (by omega) h rfl
    exact ⟨.group p e z, rfl, rfl⟩
  | tuple p z h hrest hes =>
    simp only [List.length_cons, List.length_append] at ih
    obtain ⟨first, rfl, rfl⟩ := ih _ (by omega) h rfl
    obtain ⟨tail, rfl, rfl⟩ := exists_tail hrest fun ls' a hlt ha => ih _ (by omega) ha rfl
    cases tail with
    | nil => exact absurd rfl hes
    | cons x rest =>
      exact ⟨.tuple p first x.1 x.2 rest z, lexemes_tuple .., expr_tuple ..⟩
  | ref name p => exact ⟨.ref ⟨name, p⟩, rfl, rfl⟩
  | callNone func p q z => exact ⟨.callNone ⟨func, p⟩ q z, rfl, rfl⟩
  | call func p q z h hrest =>
    simp only [List.length_cons, List.length_append] at ih
    obtain ⟨first, rfl, rfl⟩ := ih _ (by omega) h rfl
    obtain ⟨rest, rfl, rfl⟩ := exists_tail hrest fun ls' a hlt ha => ih _ (by omega) ha rfl
    exact ⟨.call ⟨func, p⟩ q first rest z, lexemes_call .., expr_call ..⟩

end ExprTree

theorem isStatement_iff {ls : List Lexeme} {s : Parser.Statement} :
    IsStatement ls s ↔ ∃ t : StatementTree, t.lexemes = ls ∧ t.statement = s := by
  constructor
  · intro h
    cases h with
    | input p q hpath haxes hdtype =>
      obtain ⟨path, rfl, rfl⟩ := isPath_iff.1 hpath
      obtain ⟨axes, rfl, rfl⟩ := isAxes_iff.1 haxes
      obtain ⟨dtype, rfl, rfl⟩ := isDType_iff.1 hdtype
      exact ⟨.input p path q axes dtype, rfl, rfl⟩
    | declaration kind name p q r hbody =>
      obtain ⟨body, rfl, rfl⟩ := ExprTree.exists_of_isExpr hbody
      exact ⟨.declaration kind p ⟨name, q⟩ r body, rfl, rfl⟩
  · rintro ⟨t, rfl, rfl⟩
    cases t with
    | input p path q axes dtype =>
      exact .input p q (isPath_iff.2 ⟨path, rfl, rfl⟩) (isAxes_iff.2 ⟨axes, rfl, rfl⟩)
        (isDType_iff.2 ⟨dtype, rfl, rfl⟩)
    | declaration kind p name r body => exact .declaration kind name.text p name.place r body.isExpr

theorem isStatements_iff {ls : List Lexeme} {ss : List Parser.Statement} :
    IsStatements ls ss ↔
      ∃ t : ModuleTree, t.lexemes = ls ∧ t.map StatementTree.statement = ss := by
  constructor
  · intro h
    induction h with
    | nil => exact ⟨[], rfl, rfl⟩
    | cons h _ ih =>
      obtain ⟨s, rfl, rfl⟩ := isStatement_iff.1 h
      obtain ⟨t, rfl, rfl⟩ := ih
      exact ⟨s :: t, rfl, rfl⟩
  · rintro ⟨t, rfl, rfl⟩
    induction t with
    | nil => exact .nil
    | cons s t ih => exact .cons (isStatement_iff.2 ⟨s, rfl, rfl⟩) ih

theorem isModule_iff {length : Nat} {ls : List Lexeme} {m : SourceModule} :
    IsModule length ls m ↔ ∃ t : ModuleTree, t.lexemes = ls ∧ t.module length = m := by
  have hmodule (t : ModuleTree) : t.module length =
      ⟨inputsOf (t.map StatementTree.statement), declarationsOf (t.map StatementTree.statement),
        moduleSpan length t.lexemes⟩ := by
    rw [Statement.inputsOf_eq, Statement.declarationsOf_eq, List.filterMap_map, List.filterMap_map]
    rfl
  constructor
  · rintro ⟨h⟩
    obtain ⟨t, rfl, rfl⟩ := isStatements_iff.1 h
    exact ⟨t, rfl, hmodule t⟩
  · rintro ⟨t, rfl, rfl⟩
    rw [hmodule]
    exact .intro (isStatements_iff.2 ⟨t, rfl, rfl⟩)

end Relation

end LoopNest.Grammar
