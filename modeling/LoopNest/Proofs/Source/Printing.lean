import LoopNest.Proofs.Expressions
import LoopNest.Proofs.Source.Parsing
import LoopNest.Proofs.Token.Rendering

/-! Reading inverts writing. The tokens of a module derive it, so every text that spells them is
read as the module, up to where its parts stand. -/
namespace LoopNest

open Lexeme Grammar

section Tokens

/-- Lists of tokens with a separator between each two. -/
def separated (sep : Symbol) : List (List Token) → List Token
  | [] => []
  | ts :: rest => ts ++ rest.flatMap (.symbol sep :: ·)

def FieldPath.tokens (p : FieldPath) : List Token :=
  separated .dot (p.map fun s => [Lexer.wordToken s.toList])

def Axes.tokens (a : Axes) : List Token :=
  .symbol .leftBracket ::
    (separated .comma (a.names.map fun n => [.ident n]) ++ [.symbol .rightBracket])

def Literal.token : Literal → Token
  | .integer n => .int n
  | .float x => .float x
  | .string s => .str s
  | .boolean b => .keyword (.boolean b)

/-- The reduced axes of a reduction. -/
def hintTokens : Option Axes → List Token
  | none => []
  | some a => .symbol .comma :: a.tokens

namespace SourceExpr

mutual
def tokens : SourceExpr → List Token
  | .constant _ v => [v.token]
  | .input _ path => .keyword .input :: .symbol .dot :: path.tokens
  | .ref _ name => [.ident name]
  | .call _ func args => .ident func :: .symbol .leftParen ::
      (separated .comma (tokensAll args) ++ [.symbol .rightParen])
  | .tuple _ elems =>
    .symbol .leftParen :: (separated .comma (tokensAll elems) ++ [.symbol .rightParen])
  | .select _ c t f => .keyword .select :: .symbol .leftParen :: (tokens c ++ .symbol .comma ::
      (tokens t ++ .symbol .comma :: (tokens f ++ [.symbol .rightParen])))
  | .reduce _ op hint arg => .keyword .reduce :: .symbol .leftParen :: .ident op ::
      .symbol .comma :: (tokens arg ++ (hintTokens hint ++ [.symbol .rightParen]))

def tokensAll : List SourceExpr → List (List Token)
  | [] => []
  | e :: es => tokens e :: tokensAll es
end

theorem tokensAll_eq (es : List SourceExpr) : tokensAll es = es.map tokens := by
  induction es with
  | nil => rfl
  | cons e es ih => rw [tokensAll, ih, List.map_cons]

/-- The expression without its places. -/
def unplaced (e : SourceExpr) : SourceExpr := e.mapNotes fun _ => .zero

end SourceExpr

namespace Parser.Statement

def tokens : Statement → List Token
  | .input d => .keyword .input ::
      (d.path.tokens ++ .symbol .colon :: (d.axes.tokens ++ [.ident d.dtype.render]))
  | .declaration d =>
    .keyword d.kind.keyword :: .ident d.name :: .symbol .equals :: SourceExpr.tokens d.body

end Parser.Statement

/-- A declared input without its place. -/
def DeclaredInput.unplaced (d : DeclaredInput) : DeclaredInput := { d with span := .zero }

/-- A declaration without its places. -/
def Declaration.unplaced (d : Declaration Span) : Declaration Span :=
  { d with body := SourceExpr.unplaced d.body, span := .zero }

namespace SourceModule

/-- The module without the places of its parts. -/
def unplaced (m : SourceModule) : SourceModule :=
  ⟨m.inputs.map DeclaredInput.unplaced, m.declarations.map Declaration.unplaced, .zero⟩

/-- The text spells the statements of the module, inputs and declarations each in their order. -/
def RenderedBy (m : SourceModule) (text : String) : Prop :=
  ∃ ss, Parser.inputsOf ss = m.inputs ∧ Parser.declarationsOf ss = m.declarations ∧
    Renders (ss.flatMap Parser.Statement.tokens) text.toList

end SourceModule

end Tokens

section Writable

def FieldPath.isWritable (p : FieldPath) : Bool := !p.isEmpty && p.all isWord

theorem FieldPath.ne_nil_of_isWritable {p : FieldPath} (h : p.isWritable = true) : p ≠ [] := by
  rintro rfl
  cases h

def Axes.isWritable (a : Axes) : Bool := a.names.all isName

/-- Whether a node can be written, its subexpressions apart. -/
def Expr.isWritable : SourceExpr → Bool
  | .constant _ (.float _) => false
  | .constant _ _ => true
  | .input _ path => path.isWritable
  | .ref _ name => isName name
  | .call _ func _ => isName func
  | .tuple _ elems => 2 ≤ elems.length
  | .select .. => true
  | .reduce _ op hint _ => isName op && hint.all Axes.isWritable

def DType.isScalar : DType → Bool
  | .tuple _ => false
  | _ => true

def DeclaredInput.isWritable (d : DeclaredInput) : Bool :=
  d.path.isWritable && d.axes.isWritable && d.dtype.isScalar

def SourceExpr.Writable (e : SourceExpr) : Prop := ∀ x ∈ e.postorder, x.isWritable = true

instance (e : SourceExpr) : Decidable (SourceExpr.Writable e) :=
  inferInstanceAs (Decidable (∀ x ∈ e.postorder, x.isWritable = true))

/-- All names are identifiers, paths are lists of words and not empty, tuples have two elements or
more, the inputs have scalar types, and no constant is a float. -/
structure SourceModule.Writable (m : SourceModule) : Prop where
  inputs : ∀ d ∈ m.inputs, d.isWritable = true
  names : ∀ d ∈ m.declarations, isName d.name = true
  bodies : ∀ d ∈ m.declarations, SourceExpr.Writable d.body

namespace SourceExpr

theorem writable_input {p : Span} {path : FieldPath} :
    Writable (.input p path) ↔ path.isWritable = true :=
  List.forall_mem_singleton

theorem writable_call {p : Span} {func : String} {args : List SourceExpr} :
    Writable (.call p func args) ↔ (∀ a ∈ args, Writable a) ∧ isName func = true := by
  simp only [Writable, Expr.postorder_call, List.forall_mem_append, List.forall_mem_flatMap,
    List.forall_mem_singleton, Expr.isWritable]

theorem writable_tuple {p : Span} {elems : List SourceExpr} :
    Writable (.tuple p elems) ↔ (∀ a ∈ elems, Writable a) ∧ 2 ≤ elems.length := by
  simp only [Writable, Expr.postorder_tuple, List.forall_mem_append, List.forall_mem_flatMap,
    List.forall_mem_singleton, Expr.isWritable, decide_eq_true_eq]

theorem writable_select {p : Span} {c t f : SourceExpr} :
    Writable (.select p c t f) ↔ Writable c ∧ Writable t ∧ Writable f := by
  simp only [Writable, Expr.postorder_select, List.forall_mem_append, List.forall_mem_singleton,
    Expr.isWritable, and_true]

theorem writable_reduce {p : Span} {op : String} {hint : Option Axes} {arg : SourceExpr} :
    Writable (.reduce p op hint arg) ↔
      Writable arg ∧ isName op = true ∧ hint.all Axes.isWritable = true := by
  simp only [Writable, Expr.postorder_reduce, List.forall_mem_append, List.forall_mem_singleton,
    Expr.isWritable, Bool.and_eq_true]

end SourceExpr

namespace Parser.Statement

def Writable : Statement → Prop
  | .input d => d.isWritable = true
  | .declaration d => isName d.name = true ∧ SourceExpr.Writable d.body

def unplaced : Statement → Statement
  | .input d => .input d.unplaced
  | .declaration d => .declaration d.unplaced

end Parser.Statement

end Writable

section Derivations

/-- Wherever the tokens stand, they derive the thing up to `g`. -/
def Derives {α β : Type} (Item : List Lexeme → α → Prop) (g : α → β) (ts : List Token) (a : α) :
    Prop :=
  ∀ ls : List Lexeme, ls.map Lexeme.token = ts → ∃ a', Item ls a' ∧ g a' = g a

theorem exists_cons {t : Token} {ts : List Token} {ls : List Lexeme}
    (h : ls.map Lexeme.token = t :: ts) :
    ∃ p rest, ls = ⟨t, p⟩ :: rest ∧ rest.map Lexeme.token = ts := by
  obtain ⟨⟨t, p⟩, rest, rfl, rfl, hrest⟩ := List.map_eq_cons_iff.1 h
  exact ⟨p, rest, rfl, hrest⟩

theorem exists_singleton {t : Token} {ls : List Lexeme} (h : ls.map Lexeme.token = [t]) :
    ∃ p, ls = [⟨t, p⟩] := by
  obtain ⟨p, rest, rfl, hrest⟩ := exists_cons h
  exact ⟨p, by rw [List.map_eq_nil_iff.1 hrest]⟩

theorem derives_repeated {α β : Type} {Item : List Lexeme → α → Prop} {g : α → β} {sep : Symbol}
    {f : α → List Token} {as : List α} (h : ∀ a ∈ as, Derives Item g (f a) a) :
    Derives (Repeated sep Item) (List.map g) ((as.map f).flatMap (.symbol sep :: ·)) as := by
  induction as with
  | nil =>
    intro ls hls
    rw [List.map_eq_nil_iff.1 hls]
    exact ⟨[], .nil, rfl⟩
  | cons a as ih =>
    intro ls hls
    obtain ⟨ha, has⟩ := List.forall_mem_cons.1 h
    rw [List.map_cons, List.flatMap_cons, List.cons_append] at hls
    obtain ⟨p, items, rfl, hitems⟩ := exists_cons hls
    obtain ⟨first, rest, rfl, hfirst, hrest⟩ := List.map_eq_append_iff.1 hitems
    obtain ⟨a', hitem, ha'⟩ := ha first hfirst
    obtain ⟨as', hitems, has'⟩ := ih has rest hrest
    refine ⟨a' :: as', .cons p hitem hitems, ?_⟩
    rw [List.map_cons, ha', has', List.map_cons]

theorem derives_name (n : String) : Derives IsName id [.ident n] n := by
  intro ls hls
  obtain ⟨p, rfl⟩ := exists_singleton hls
  exact ⟨n, .ident n p, rfl⟩

theorem derives_segment (s : String) : Derives IsSegment id [Lexer.wordToken s.toList] s := by
  intro ls hls
  obtain ⟨p, rfl⟩ := exists_singleton hls
  rw [Lexer.wordToken, String.ofList_toList]
  cases hk : Keyword.ofText? s with
  | none => exact ⟨s, .ident s p, rfl⟩
  | some k =>
    have hs : k.text = s := by simpa using List.find?_some hk
    exact ⟨s, hs ▸ .keyword k p, rfl⟩

theorem derives_path {path : FieldPath} (h : path ≠ []) : Derives IsPath id path.tokens path := by
  cases path with
  | nil => exact absurd rfl h
  | cons s ss =>
    intro ls hls
    obtain ⟨first, rest, rfl, hfirst, hrest⟩ := List.map_eq_append_iff.1 hls
    obtain ⟨_, hsegment, rfl⟩ := derives_segment s first hfirst
    obtain ⟨_, hsegments, hss⟩ := derives_repeated (fun s _ => derives_segment s) rest hrest
    rw [List.map_id, List.map_id] at hss
    exact ⟨_, .intro hsegment (hss ▸ hsegments), rfl⟩

theorem derives_axes (a : Axes) : Derives IsAxes id a.tokens a := by
  intro ls hls
  obtain ⟨p, closed, rfl, hclosed⟩ := exists_cons hls
  obtain ⟨names, close, rfl, hnames, hclose⟩ := List.map_eq_append_iff.1 hclosed
  obtain ⟨q, rfl⟩ := exists_singleton hclose
  cases a with
  | nil =>
    rw [List.map_eq_nil_iff.1 hnames]
    exact ⟨[], .none p q, rfl⟩
  | cons x xs =>
    obtain ⟨first, rest, rfl, hfirst, hrest⟩ := List.map_eq_append_iff.1 hnames
    obtain ⟨_, hname, rfl⟩ := derives_name x.name first hfirst
    obtain ⟨_, hmore, hxs⟩ := derives_repeated (fun n _ => derives_name n) rest hrest
    rw [List.map_id, List.map_id] at hxs
    subst hxs
    refine ⟨Axes.ofNames (x.name :: Axes.names xs), ?_, Axes.ofNames_names (x :: xs)⟩
    rw [List.append_assoc]
    exact .some p q hname hmore

theorem derives_hint (hint : Option Axes) : Derives IsHint id (hintTokens hint) hint := by
  intro ls hls
  cases hint with
  | none =>
    rw [List.map_eq_nil_iff.1 hls]
    exact ⟨none, .none, rfl⟩
  | some a =>
    obtain ⟨p, axes, rfl, haxes⟩ := exists_cons hls
    obtain ⟨_, hderived, rfl⟩ := derives_axes a axes haxes
    exact ⟨_, .some p hderived, rfl⟩

theorem derives_literal {v : Literal} : IsLiteral v.token v := by
  cases v with
  | integer n => exact .integer n
  | float x => exact .float x
  | string s => exact .string s
  | boolean b => exact .boolean b

theorem derives_dtype {t : DType} (h : t.isScalar = true) (p : Span) :
    IsDType (ident t.render p) t := by
  cases t with
  | integer => exact .integer p
  | float => exact .float p
  | string => exact .string p
  | boolean => exact .boolean p
  | tuple => cases h

namespace SourceExpr

theorem unplaced_select (p : Span) (c t f : SourceExpr) :
    unplaced (.select p c t f) = .select .zero (unplaced c) (unplaced t) (unplaced f) := rfl

theorem unplaced_reduce (p : Span) (op : String) (hint : Option Axes) (arg : SourceExpr) :
    unplaced (.reduce p op hint arg) = .reduce .zero op hint (unplaced arg) := rfl

/-- Two expressions or more between brackets and commas, or one. -/
theorem derives_separated {e : SourceExpr} {es : List SourceExpr}
    (h : ∀ x ∈ e :: es, Derives IsExpr unplaced (tokens x) x) {ls : List Lexeme}
    (hls : ls.map Lexeme.token = separated .comma ((e :: es).map tokens)) :
    ∃ first rest e' es', ls = first ++ rest ∧ IsExpr first e' ∧ Repeated .comma IsExpr rest es' ∧
      (e' :: es').map unplaced = (e :: es).map unplaced := by
  obtain ⟨he, hes⟩ := List.forall_mem_cons.1 h
  obtain ⟨first, rest, rfl, hfirst, hrest⟩ := List.map_eq_append_iff.1 hls
  obtain ⟨e', hexpr, he'⟩ := he first hfirst
  obtain ⟨es', hexprs, hes'⟩ := derives_repeated hes rest hrest
  refine ⟨first, rest, e', es', rfl, hexpr, hexprs, ?_⟩
  rw [List.map_cons, he', hes', List.map_cons]

theorem unplaced_call (p : Span) (func : String) (args : List SourceExpr) :
    unplaced (.call p func args) = .call .zero func (args.map unplaced) := by
  rw [unplaced, Expr.mapNotes, Expr.mapNotesAll_eq]
  rfl

theorem unplaced_tuple (p : Span) (elems : List SourceExpr) :
    unplaced (.tuple p elems) = .tuple .zero (elems.map unplaced) := by
  rw [unplaced, Expr.mapNotes, Expr.mapNotesAll_eq]
  rfl

theorem derives_expr {e : SourceExpr} (h : Writable e) : Derives IsExpr unplaced (tokens e) e := by
  induction e using Expr.induction with
  | constant p v =>
    intro ls hls
    obtain ⟨q, rfl⟩ := exists_singleton hls
    exact ⟨.constant q v, .constant q derives_literal, rfl⟩
  | input p path =>
    intro ls hls
    obtain ⟨q, rest, rfl, hrest⟩ := exists_cons hls
    obtain ⟨r, ps, rfl, hps⟩ := exists_cons hrest
    have hne := FieldPath.ne_nil_of_isWritable (writable_input.1 h)
    obtain ⟨_, hpath, rfl⟩ := derives_path hne ps hps
    exact ⟨_, .input q r hpath, rfl⟩
  | ref p name =>
    intro ls hls
    obtain ⟨q, rfl⟩ := exists_singleton hls
    exact ⟨.ref q name, .ref name q, rfl⟩
  | call p func args ih =>
    intro ls hls
    rw [tokens, tokensAll_eq] at hls
    have hargs (a : SourceExpr) (ha : a ∈ args) := ih a ha ((writable_call.1 h).1 a ha)
    obtain ⟨q, opened, rfl, hopened⟩ := exists_cons hls
    obtain ⟨r, closed, rfl, hclosed⟩ := exists_cons hopened
    obtain ⟨inner, close, rfl, hinner, hclose⟩ := List.map_eq_append_iff.1 hclosed
    obtain ⟨z, rfl⟩ := exists_singleton hclose
    cases args with
    | nil =>
      rw [List.map_eq_nil_iff.1 hinner]
      exact ⟨_, .callNone func q r z, rfl⟩
    | cons e es =>
      obtain ⟨first, rest, e', es', rfl, hfirst, hrest, hsame⟩ := derives_separated hargs hinner
      refine ⟨.call (q.upTo z) func (e' :: es'), ?_, by rw [unplaced_call, unplaced_call, hsame]⟩
      rw [List.append_assoc]
      exact .call func q r z hfirst hrest
  | tuple p elems ih =>
    intro ls hls
    rw [tokens, tokensAll_eq] at hls
    obtain ⟨helems, hlength⟩ := writable_tuple.1 h
    obtain ⟨q, closed, rfl, hclosed⟩ := exists_cons hls
    obtain ⟨inner, close, rfl, hinner, hclose⟩ := List.map_eq_append_iff.1 hclosed
    obtain ⟨z, rfl⟩ := exists_singleton hclose
    obtain ⟨e, e₂, es, rfl⟩ : ∃ e e₂ es, elems = e :: e₂ :: es := by
      match elems, hlength with
      | e :: e₂ :: es, _ => exact ⟨e, e₂, es, rfl⟩
    obtain ⟨first, rest, e', es', rfl, hfirst, hrest, hsame⟩ :=
      derives_separated (fun a ha => ih a ha (helems a ha)) hinner
    -- brackets around a single expression would only group it
    have hne : es' ≠ [] := by
      rintro rfl
      simp at hsame
    refine ⟨.tuple (q.upTo z) (e' :: es'), ?_, by rw [unplaced_tuple, unplaced_tuple, hsame]⟩
    rw [List.append_assoc]
    exact .tuple q z hfirst hrest hne
  | select p c t f hc ht hf =>
    intro ls hls
    obtain ⟨hcw, htw, hfw⟩ := writable_select.1 h
    obtain ⟨q, opened, rfl, hopened⟩ := exists_cons hls
    obtain ⟨r, parts, rfl, hparts⟩ := exists_cons hopened
    obtain ⟨cs, afterCond, rfl, hcs, hafterCond⟩ := List.map_eq_append_iff.1 hparts
    obtain ⟨s, branches, rfl, hbranches⟩ := exists_cons hafterCond
    obtain ⟨ts, afterTrue, rfl, hts, hafterTrue⟩ := List.map_eq_append_iff.1 hbranches
    obtain ⟨u, closed, rfl, hclosed⟩ := exists_cons hafterTrue
    obtain ⟨fs, close, rfl, hfs, hclose⟩ := List.map_eq_append_iff.1 hclosed
    obtain ⟨z, rfl⟩ := exists_singleton hclose
    obtain ⟨c', hc', hcsame⟩ := hc hcw cs hcs
    obtain ⟨t', ht', htsame⟩ := ht htw ts hts
    obtain ⟨f', hf', hfsame⟩ := hf hfw fs hfs
    refine ⟨_, .select q r s u z hc' ht' hf', ?_⟩
    rw [unplaced_select, unplaced_select, hcsame, htsame, hfsame]
  | reduce p op hint arg ih =>
    intro ls hls
    obtain ⟨q, opened, rfl, hopened⟩ := exists_cons hls
    obtain ⟨r, reducer, rfl, hreducer⟩ := exists_cons hopened
    obtain ⟨s, afterReducer, rfl, hafterReducer⟩ := exists_cons hreducer
    obtain ⟨u, parts, rfl, hparts⟩ := exists_cons hafterReducer
    obtain ⟨inner, closed, rfl, hinner, hclosed⟩ := List.map_eq_append_iff.1 hparts
    obtain ⟨hs, close, rfl, hhs, hclose⟩ := List.map_eq_append_iff.1 hclosed
    obtain ⟨z, rfl⟩ := exists_singleton hclose
    obtain ⟨arg', harg, hsame⟩ := ih (writable_reduce.1 h).1 inner hinner
    obtain ⟨_, hhint, rfl⟩ := derives_hint hint hs hhs
    refine ⟨_, .reduce op q r s u z harg hhint, ?_⟩
    rw [unplaced_reduce, unplaced_reduce, hsame]
    rfl

end SourceExpr

theorem derives_statement {s : Parser.Statement} (h : s.Writable) :
    Derives IsStatement Parser.Statement.unplaced s.tokens s := by
  intro ls hls
  cases s with
  | input d =>
    simp only [Parser.Statement.Writable, DeclaredInput.isWritable, Bool.and_eq_true] at h
    obtain ⟨⟨hpath, -⟩, hscalar⟩ := h
    obtain ⟨p, parts, rfl, hparts⟩ := exists_cons hls
    obtain ⟨ps, afterPath, rfl, hps, hafterPath⟩ := List.map_eq_append_iff.1 hparts
    obtain ⟨q, typed, rfl, htyped⟩ := exists_cons hafterPath
    obtain ⟨as, last, rfl, has, hlast⟩ := List.map_eq_append_iff.1 htyped
    obtain ⟨r, rfl⟩ := exists_singleton hlast
    obtain ⟨path, hpath', hsame⟩ := derives_path (FieldPath.ne_nil_of_isWritable hpath) ps hps
    obtain ⟨axes, haxes, hsame'⟩ := derives_axes d.axes as has
    refine ⟨_, .input p q hpath' haxes (derives_dtype hscalar r), ?_⟩
    cases hsame
    cases hsame'
    rfl
  | declaration d =>
    obtain ⟨p, named, rfl, hnamed⟩ := exists_cons hls
    obtain ⟨q, defined, rfl, hdefined⟩ := exists_cons hnamed
    obtain ⟨r, inner, rfl, hinner⟩ := exists_cons hdefined
    obtain ⟨body, hbody, hsame⟩ := SourceExpr.derives_expr h.2 inner hinner
    refine ⟨_, .declaration d.kind d.name p q r hbody, ?_⟩
    simp only [Parser.Statement.unplaced, Declaration.unplaced, hsame]

theorem derives_statements {ss : List Parser.Statement} (h : ∀ s ∈ ss, s.Writable) :
    Derives IsStatements (List.map Parser.Statement.unplaced)
      (ss.flatMap Parser.Statement.tokens) ss := by
  induction ss with
  | nil =>
    intro ls hls
    rw [List.map_eq_nil_iff.1 hls]
    exact ⟨[], .nil, rfl⟩
  | cons s ss ih =>
    intro ls hls
    obtain ⟨hs, hss⟩ := List.forall_mem_cons.1 h
    obtain ⟨first, rest, rfl, hfirst, hrest⟩ := List.map_eq_append_iff.1 hls
    obtain ⟨s', hstatement, hs'⟩ := derives_statement hs first hfirst
    obtain ⟨ss', hstatements, hss'⟩ := ih hss rest hrest
    refine ⟨s' :: ss', .cons hstatement hstatements, ?_⟩
    rw [List.map_cons, hs', hss', List.map_cons]

end Derivations

section Spelling

/-- All these tokens can be written. -/
def Legible (ts : List Token) : Prop := ∀ t ∈ ts, ∃ cs, Spells t cs

theorem legible_nil : Legible [] := List.forall_mem_nil _

theorem legible_cons {t : Token} {ts : List Token} :
    Legible (t :: ts) ↔ (∃ cs, Spells t cs) ∧ Legible ts := List.forall_mem_cons

theorem legible_append {ts us : List Token} :
    Legible (ts ++ us) ↔ Legible ts ∧ Legible us := List.forall_mem_append

theorem legible_symbol {s : Symbol} {ts : List Token} :
    Legible (.symbol s :: ts) ↔ Legible ts := by
  rw [legible_cons, and_iff_right ⟨_, .symbol s⟩]

theorem legible_keyword {k : Keyword} {ts : List Token} :
    Legible (.keyword k :: ts) ↔ Legible ts := by
  rw [legible_cons, and_iff_right ⟨_, .keyword k⟩]

theorem Legible.ident {name : String} {ts : List Token} (hname : isName name = true)
    (h : Legible ts) : Legible (.ident name :: ts) :=
  legible_cons.2 ⟨⟨_, .ident hname⟩, h⟩

theorem legible_separated {sep : Symbol} {parts : List (List Token)}
    (h : ∀ ts ∈ parts, Legible ts) : Legible (separated sep parts) := by
  cases parts with
  | nil => exact legible_nil
  | cons ts parts =>
    obtain ⟨hts, hparts⟩ := List.forall_mem_cons.1 h
    refine legible_append.2 ⟨hts, List.forall_mem_flatMap.2 fun us hus => ?_⟩
    exact legible_symbol.2 (hparts us hus)

theorem legible_word {s : String} (h : isWord s = true) : Legible [Lexer.wordToken s.toList] := by
  rw [Lexer.wordToken, String.ofList_toList]
  cases hk : Keyword.ofText? s with
  | none => exact .ident (by simp [isName, h, hk]) legible_nil
  | some k => exact legible_keyword.2 legible_nil

theorem legible_path {p : FieldPath} (h : p.isWritable = true) : Legible p.tokens := by
  refine legible_separated (List.forall_mem_map.2 fun s hs => legible_word ?_)
  rw [FieldPath.isWritable, Bool.and_eq_true, List.all_eq_true] at h
  exact h.2 s hs

theorem legible_axes {a : Axes} (h : a.isWritable = true) : Legible a.tokens := by
  refine legible_symbol.2 (legible_append.2 ⟨?_, legible_symbol.2 legible_nil⟩)
  refine legible_separated (List.forall_mem_map.2 fun n hn => .ident ?_ legible_nil)
  exact List.all_eq_true.1 h n hn

theorem legible_hint {hint : Option Axes} (h : hint.all Axes.isWritable = true) :
    Legible (hintTokens hint) := by
  cases hint with
  | none => exact legible_nil
  | some a => exact legible_symbol.2 (legible_axes h)

theorem legible_expr {e : SourceExpr} (h : SourceExpr.Writable e) :
    Legible (SourceExpr.tokens e) := by
  induction e using Expr.induction with
  | constant p v =>
    cases v with
    | integer n => exact legible_cons.2 ⟨⟨_, .int n⟩, legible_nil⟩
    | float x => cases h _ List.mem_cons_self
    | string s => exact legible_cons.2 ⟨⟨_, .str s⟩, legible_nil⟩
    | boolean b => exact legible_keyword.2 legible_nil
  | input p path =>
    have hpath := legible_path (SourceExpr.writable_input.1 h)
    exact legible_keyword.2 (legible_symbol.2 hpath)
  | ref p name => exact .ident (h _ List.mem_cons_self) legible_nil
  | call p func args ih =>
    obtain ⟨hargs, hfunc⟩ := SourceExpr.writable_call.1 h
    rw [SourceExpr.tokens, SourceExpr.tokensAll_eq]
    refine .ident hfunc (legible_symbol.2 (legible_append.2 ⟨?_, legible_symbol.2 legible_nil⟩))
    exact legible_separated (List.forall_mem_map.2 fun a ha => ih a ha (hargs a ha))
  | tuple p elems ih =>
    obtain ⟨helems, -⟩ := SourceExpr.writable_tuple.1 h
    rw [SourceExpr.tokens, SourceExpr.tokensAll_eq]
    refine legible_symbol.2 (legible_append.2 ⟨?_, legible_symbol.2 legible_nil⟩)
    exact legible_separated (List.forall_mem_map.2 fun a ha => ih a ha (helems a ha))
  | select p c t f hc ht hf =>
    obtain ⟨hcw, htw, hfw⟩ := SourceExpr.writable_select.1 h
    simp only [SourceExpr.tokens, legible_keyword, legible_symbol, legible_append]
    exact ⟨hc hcw, ht htw, hf hfw, legible_nil⟩
  | reduce p op hint arg ih =>
    obtain ⟨harg, hop, hhint⟩ := SourceExpr.writable_reduce.1 h
    refine legible_keyword.2 (legible_symbol.2 (.ident hop ?_))
    simp only [legible_symbol, legible_append]
    exact ⟨ih harg, legible_hint hhint, legible_nil⟩

theorem legible_statement {s : Parser.Statement} (h : s.Writable) : Legible s.tokens := by
  cases s with
  | input d =>
    simp only [Parser.Statement.Writable, DeclaredInput.isWritable, Bool.and_eq_true] at h
    obtain ⟨⟨hpath, haxes⟩, hscalar⟩ := h
    have hdtype : isName d.dtype.render = true := by
      cases hd : d.dtype with
      | tuple ts => simp [hd, DType.isScalar] at hscalar
      | _ => decide
    simp only [Parser.Statement.tokens, legible_keyword, legible_symbol, legible_append]
    exact ⟨legible_path hpath, legible_axes haxes, .ident hdtype legible_nil⟩
  | declaration d =>
    exact legible_keyword.2 (.ident h.1 (legible_symbol.2 (legible_expr h.2)))

end Spelling

namespace Parser.Statement

def input? : Statement → Option DeclaredInput
  | .input d => some d
  | .declaration _ => none

def declaration? : Statement → Option (Declaration Span)
  | .input _ => none
  | .declaration d => some d

theorem inputsOf_eq (ss : List Statement) : inputsOf ss = ss.filterMap input? := by
  induction ss with
  | nil => rfl
  | cons s ss ih => cases s <;> simp [inputsOf, input?, List.filterMap_cons, ih]

theorem declarationsOf_eq (ss : List Statement) :
    declarationsOf ss = ss.filterMap declaration? := by
  induction ss with
  | nil => rfl
  | cons s ss ih => cases s <;> simp [declarationsOf, declaration?, List.filterMap_cons, ih]

theorem input?_unplaced (s : Statement) : s.unplaced.input? = s.input?.map .unplaced := by
  cases s <;> rfl

theorem declaration?_unplaced (s : Statement) :
    s.unplaced.declaration? = s.declaration?.map .unplaced := by
  cases s <;> rfl

theorem inputsOf_of_unplaced {ss ss' : List Statement} (h : ss.map unplaced = ss'.map unplaced) :
    (inputsOf ss).map DeclaredInput.unplaced = (inputsOf ss').map DeclaredInput.unplaced := by
  have h' := congrArg (List.filterMap input?) h
  simp only [List.filterMap_map, Function.comp_def, input?_unplaced] at h'
  simpa only [inputsOf_eq, List.map_filterMap] using h'

theorem declarationsOf_of_unplaced {ss ss' : List Statement}
    (h : ss.map unplaced = ss'.map unplaced) :
    (declarationsOf ss).map Declaration.unplaced =
      (declarationsOf ss').map Declaration.unplaced := by
  have h' := congrArg (List.filterMap declaration?) h
  simp only [List.filterMap_map, Function.comp_def, declaration?_unplaced] at h'
  simpa only [declarationsOf_eq, List.map_filterMap] using h'

end Parser.Statement

namespace SourceModule

/-- The statements of a module, inputs first. -/
def statements (m : SourceModule) : List Parser.Statement :=
  m.inputs.map .input ++ m.declarations.map .declaration

theorem inputsOf_statements (m : SourceModule) : Parser.inputsOf m.statements = m.inputs := by
  simp [Parser.Statement.inputsOf_eq, statements, Parser.Statement.input?, List.filterMap_map,
    Function.comp_def]

theorem declarationsOf_statements (m : SourceModule) :
    Parser.declarationsOf m.statements = m.declarations := by
  simp [Parser.Statement.declarationsOf_eq, statements, Parser.Statement.declaration?,
    List.filterMap_map, Function.comp_def]

theorem Writable.statement {m : SourceModule} (h : m.Writable) {ss : List Parser.Statement}
    (hinputs : Parser.inputsOf ss = m.inputs)
    (hdecls : Parser.declarationsOf ss = m.declarations) {s : Parser.Statement} (hs : s ∈ ss) :
    s.Writable := by
  cases s with
  | input d =>
    have hd : d ∈ m.inputs := by
      rw [← hinputs, Parser.Statement.inputsOf_eq]
      exact List.mem_filterMap.2 ⟨_, hs, rfl⟩
    exact h.inputs d hd
  | declaration d =>
    have hd : d ∈ m.declarations := by
      rw [← hdecls, Parser.Statement.declarationsOf_eq]
      exact List.mem_filterMap.2 ⟨_, hs, rfl⟩
    exact ⟨h.names d hd, h.bodies d hd⟩

theorem Writable.exists_renderedBy {m : SourceModule} (h : m.Writable) :
    ∃ text, m.RenderedBy text := by
  have hlegible : Legible (m.statements.flatMap Parser.Statement.tokens) :=
    List.forall_mem_flatMap.2 fun s hs =>
      legible_statement (h.statement m.inputsOf_statements m.declarationsOf_statements hs)
  obtain ⟨cs, hcs⟩ := exists_renders hlegible
  refine ⟨String.ofList (' ' :: cs), m.statements, m.inputsOf_statements,
    m.declarationsOf_statements, ?_⟩
  rwa [String.toList_ofList]

/-- Every module that can be written has a text, and every text that spells it is read without
errors as that module, up to where its parts stand. -/
theorem reading_inverts_rendering (m : SourceModule) (h : m.Writable) :
    (∃ text, m.RenderedBy text) ∧ ∀ text, m.RenderedBy text →
      (SourceReading.ofSource text).errors = [] ∧
      ∃ m', (SourceReading.ofSource text).module? = some m' ∧ m'.unplaced = m.unplaced := by
  refine ⟨h.exists_renderedBy, ?_⟩
  rintro text ⟨ss, hinputs, hdecls, hrenders⟩
  obtain ⟨htokens, hstrays⟩ := hrenders.scan
  obtain ⟨ss', hderived, hsame⟩ := derives_statements
    (fun s hs => h.statement hinputs hdecls hs) (Scan.ofSource text).lexemes htokens
  have hread := Parser.parseLexemes_of_isModule (.intro hderived : IsModule text.utf8ByteSize _ _)
  have hresult : (SourceReading.ofSource text).result = .ok _ := hread
  refine ⟨?_, _, by rw [SourceReading.module?, hresult]; rfl, ?_⟩
  · have hno : (SourceReading.ofSource text).strays = [] := hstrays
    rw [SourceReading.errors, hno, hresult]
    rfl
  · rw [unplaced, unplaced, ← hinputs, ← hdecls, Parser.Statement.inputsOf_of_unplaced hsame,
      Parser.Statement.declarationsOf_of_unplaced hsame]

/-- A call with a keyword in a path, a negative number, and a string of a number sign, a quote and
a backslash. -/
def quoteCall : SourceModule where
  inputs := []
  declarations := [⟨"a", .value, .call .zero "f" [.input .zero ["value"],
    .constant .zero (.integer (-5)), .constant .zero (.string "#\"\\")], .zero⟩]
  span := .zero

def quoteCallText : String := "# rates\nvalue a=f(input.value,-5,\t\"#\\\"\\\\\")#"

theorem quoteCall_renderedBy : quoteCall.RenderedBy quoteCallText := by
  have hnote : IsGap ('#' :: (" rates".toList ++ '\n' :: [])) := .comment (by decide) .nil
  have hrenders : ∃ cs, cs = quoteCallText.toList ∧
      Renders (quoteCall.statements.flatMap Parser.Statement.tokens) cs := by
    -- the derivation determines its text, which is then compared with the given one
    have ha : Spells (.ident "a") "a".toList := .ident (by decide)
    have hf : Spells (.ident "f") "f".toList := .ident (by decide)
    refine ⟨_, ?_, .token hnote (.keyword .value) rfl <|
      .token (.blank (c := ' ') (by decide) .nil) ha rfl <|
      .token .nil (.symbol .equals) rfl <|
      .token .nil hf rfl <|
      .token .nil (.symbol .leftParen) rfl <|
      .token .nil (.keyword .input) rfl <|
      .token .nil (.symbol .dot) rfl <|
      .token .nil (.keyword .value) rfl <|
      .token .nil (.symbol .comma) rfl <|
      .token .nil (.int (-5)) rfl <|
      .token .nil (.symbol .comma) rfl <|
      .token (.blank (c := '\t') (by decide) .nil) (.str "#\"\\") rfl <|
      .token .nil (.symbol .rightParen) rfl <|
      .note .nil (List.not_mem_nil : '\n' ∉ [])⟩
    decide
  obtain ⟨cs, rfl, hrenders⟩ := hrenders
  exact ⟨quoteCall.statements, rfl, rfl, hrenders⟩

theorem quoteCall_reading :
    quoteCall.Writable ∧ quoteCall.RenderedBy quoteCallText ∧
      (SourceReading.ofSource quoteCallText).errors = [] ∧
      ∃ m', (SourceReading.ofSource quoteCallText).module? = some m' ∧
        m'.unplaced = quoteCall.unplaced := by
  have hwritable : quoteCall.Writable := ⟨by decide, by decide, by decide⟩
  exact ⟨hwritable, quoteCall_renderedBy,
    (reading_inverts_rendering quoteCall hwritable).2 quoteCallText quoteCall_renderedBy⟩

end SourceModule

end LoopNest
