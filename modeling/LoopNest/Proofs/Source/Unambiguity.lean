import LoopNest.Proofs.Source.Derivation
import LoopNest.Proofs.Source.Recognition

/-! Tokens have at most one derivation. The first token of an expression or a statement decides its
production up to what may follow, and no list of items can be taken for a shorter or a longer one.
So reading accepts what has a derivation, and gives what its only derivation stands for. -/
namespace LoopNest.Grammar

open Lexeme LoopNest.Parser

variable {τ : Type} {ss : List Symbol} {sep : Symbol} {spell : τ → List Lexeme}

/-- Where none of the symbols comes next, no other tree spells the tokens of this one, or some more
or fewer of them. -/
def Determined (ss : List Symbol) (spell : τ → List Lexeme) (t : τ) : Prop :=
  ∀ t' more more', spell t ++ more = spell t' ++ more' → Free ss more → Free ss more' →
    t = t' ∧ more = more'

theorem symbol_cons_inj {s : Symbol} {p q : Span} {ls ls' : List Lexeme} :
    symbol s p :: ls = symbol s q :: ls' ↔ p = q ∧ ls = ls' := by
  simp

theorem free_tail (hsep : sep ∉ ss) (tail : Tail τ) {more : List Lexeme}
    (h : Free (sep :: ss) more) : Free ss (tail.lexemes sep spell ++ more) := by
  cases tail with
  | nil => exact h.mono (List.subset_cons_self _ _)
  | cons x tail => exact free_symbol.2 hsep

theorem not_free_cons {p : Span} {more : List Lexeme} :
    ¬Free (sep :: ss) (symbol sep p :: more) :=
  fun h => free_symbol.1 h List.mem_cons_self

theorem determined_tail (hsep : sep ∉ ss) {tail : Tail τ}
    (h : ∀ x ∈ tail, Determined ss spell x.2) :
    Determined (sep :: ss) (Tail.lexemes sep spell) tail := by
  induction tail with
  | nil =>
    intro tail' more more' heq hmore _
    cases tail' with
    | nil => exact ⟨rfl, heq⟩
    | cons y tail' =>
      rw [Tail.lexemes_nil, List.nil_append] at heq
      rw [heq] at hmore
      exact absurd hmore not_free_cons
  | cons x tail ih =>
    obtain ⟨hx, htail⟩ := List.forall_mem_cons.1 h
    intro tail' more more' heq hmore hmore'
    cases tail' with
    | nil =>
      rw [Tail.lexemes_nil, List.nil_append] at heq
      rw [← heq] at hmore'
      exact absurd hmore' not_free_cons
    | cons y tail' =>
      simp only [Tail.lexemes_cons, List.cons_append, List.append_assoc, symbol_cons_inj] at heq
      obtain ⟨hp, heq⟩ := heq
      obtain ⟨ht, heq⟩ := hx y.2 _ _ heq (free_tail hsep tail hmore) (free_tail hsep tail' hmore')
      obtain ⟨rfl, hrest⟩ := ih htail tail' more more' heq hmore hmore'
      exact ⟨congrArg (· :: tail) (Prod.ext hp ht), hrest⟩

theorem Segment.lexeme_injective {s t : Segment} (h : s.lexeme = t.lexeme) : s = t := by
  cases s <;> cases t <;> cases h <;> rfl

theorem Name.lexeme_injective {n m : Name} (h : n.lexeme = m.lexeme) : n = m := by
  cases n
  cases m
  cases h
  rfl

theorem determined_words {spell : τ → Lexeme} (h : ∀ t t', spell t = spell t' → t = t')
    (tail : Tail τ) : Determined [sep] (Tail.lexemes sep fun t => [spell t]) tail := by
  refine determined_tail List.not_mem_nil fun x _ t' more more' heq _ _ => ?_
  obtain ⟨hfirst, hrest⟩ := List.cons.inj heq
  exact ⟨h _ _ hfirst, hrest⟩

theorem determined_path (t : PathTree) : Determined [.dot] PathTree.lexemes t := by
  intro t' more more' heq hmore hmore'
  obtain ⟨first, rest⟩ := t
  obtain ⟨first', rest'⟩ := t'
  obtain ⟨hfirst, heq⟩ := List.cons.inj heq
  cases Segment.lexeme_injective hfirst
  obtain ⟨rfl, hsame⟩ := determined_words (fun _ _ => Segment.lexeme_injective) rest rest' more
    more' heq hmore hmore'
  exact ⟨rfl, hsame⟩

theorem determined_axes (t : AxesTree) : Determined [] AxesTree.lexemes t := by
  intro t' more more' heq _ _
  cases t with
  | none p q =>
    cases t' with
    | none p' q' =>
      cases heq
      exact ⟨rfl, rfl⟩
    | some p' first' rest' q' => cases heq
  | some p first rest q =>
    cases t' with
    | none p' q' => cases heq
    | some p' first' rest' q' =>
      simp only [AxesTree.lexemes, List.cons_append, List.append_assoc, List.cons.injEq] at heq
      obtain ⟨hp, hfirst, heq⟩ := heq
      cases hp
      cases Name.lexeme_injective hfirst
      obtain ⟨rfl, hsame⟩ := determined_words (fun _ _ => Name.lexeme_injective) rest rest' _ _ heq
        (free_symbol.2 (by decide)) (free_symbol.2 (by decide))
      cases hsame
      exact ⟨rfl, rfl⟩

theorem determined_hint {hint hint' : Option (Span × AxesTree)} {z z' : Span}
    {more more' : List Lexeme} (h : hintLexemes hint ++ symbol .rightParen z :: more =
      hintLexemes hint' ++ symbol .rightParen z' :: more') :
    hint = hint' ∧ z = z' ∧ more = more' := by
  cases hint with
  | none =>
    cases hint' with
    | none =>
      cases h
      exact ⟨rfl, rfl, rfl⟩
    | some x' => cases h
  | some x =>
    cases hint' with
    | none => cases h
    | some x' =>
      obtain ⟨hp, h⟩ := symbol_cons_inj.1 h
      obtain ⟨ht, h⟩ := determined_axes x.2 x'.2 _ _ h (by simp [Free]) (by simp [Free])
      exact ⟨congrArg some (Prod.ext hp ht), symbol_cons_inj.1 h⟩

theorem free_hint (hint : Option (Span × AxesTree)) (z : Span) (more : List Lexeme) :
    AfterExpr (hintLexemes hint ++ symbol .rightParen z :: more) := by
  cases hint <;> exact free_symbol.2 (by decide)

namespace ExprTree

/-- The first token of an expression. -/
def head : ExprTree → Lexeme
  | .literal v p => ⟨v.token, p⟩
  | .input p _ _ => keyword .input p
  | .select p _ _ _ _ _ _ _ => keyword .select p
  | .reduce p _ _ _ _ _ _ => keyword .reduce p
  | .group p _ _ | .tuple p _ _ _ _ _ => symbol .leftParen p
  | .callNone func _ _ | .call func _ _ _ _ => func.lexeme
  | .ref name => name.lexeme

theorem exists_lexemes_eq (t : ExprTree) : ∃ rest, t.lexemes = t.head :: rest := by
  cases t <;> exact ⟨_, rfl⟩

theorem head_eq {t t' : ExprTree} {more more' : List Lexeme}
    (h : t.lexemes ++ more = t'.lexemes ++ more') : t.head = t'.head := by
  obtain ⟨rest, hrest⟩ := t.exists_lexemes_eq
  obtain ⟨rest', hrest'⟩ := t'.exists_lexemes_eq
  rw [hrest, hrest'] at h
  exact (List.cons.inj h).1

theorem head_ne_rightParen (t : ExprTree) (z : Span) : t.head ≠ symbol .rightParen z := by
  cases t with
  | literal v p => cases v <;> intro h <;> cases h
  | _ => intro h; cases h

/-- An expression goes on with a dot or an opening bracket only. -/
abbrev Unique (t : ExprTree) : Prop := Determined [.dot, .leftParen] lexemes t

theorem not_afterExpr {more ls : List Lexeme} {q : Span} (h : more = symbol .leftParen q :: ls) :
    ¬AfterExpr more := by
  rw [h]
  exact fun hfree => free_symbol.1 hfree (by decide)

/-- Expressions between commas, and the bracket that closes the list. -/
theorem unique_items {first first' : ExprTree} {rest rest' : Tail ExprTree} {z z' : Span}
    {more more' : List Lexeme} (hfirst : first.Unique) (hrest : ∀ x ∈ rest, x.2.Unique)
    (heq : first.lexemes ++ (Tail.lexemes .comma lexemes rest ++ [symbol .rightParen z]) ++ more =
      first'.lexemes ++ (Tail.lexemes .comma lexemes rest' ++ [symbol .rightParen z']) ++ more') :
    first = first' ∧ rest = rest' ∧ z = z' ∧ more = more' := by
  simp only [List.append_assoc] at heq
  have hclosing (p : Span) (ls : List Lexeme) :
      Free [.comma, .dot, .leftParen] (symbol .rightParen p :: ls) := free_symbol.2 (by decide)
  have hsep : Symbol.comma ∉ [Symbol.dot, .leftParen] := by decide
  obtain ⟨rfl, htail⟩ := hfirst first' _ _ heq (free_tail hsep rest (hclosing z more))
    (free_tail hsep rest' (hclosing z' more'))
  obtain ⟨rfl, hclose⟩ := determined_tail hsep hrest rest' _ _ htail (hclosing z more)
    (hclosing z' more')
  exact ⟨rfl, rfl, symbol_cons_inj.1 hclose⟩

/-- The brackets of a group hold one expression. -/
theorem lexemes_group (p : Span) (e : ExprTree) (z : Span) : (group p e z).lexemes =
    symbol .leftParen p ::
      (e.lexemes ++ (Tail.lexemes .comma lexemes [] ++ [symbol .rightParen z])) := rfl

theorem unique_literal (v : Literal) (p : Span) : (literal v p).Unique := by
  intro t' more more' heq _ _
  have hhead := head_eq heq
  cases t' with
  | literal v' p' => cases v <;> cases v' <;> cases heq <;> exact ⟨rfl, rfl⟩
  | _ => cases v <;> cases hhead

theorem unique_input (p q : Span) (path : PathTree) : (input p q path).Unique := by
  intro t' more more' heq hmore hmore'
  have hhead := head_eq heq
  cases t' with
  | input p' q' path' =>
    cases hhead
    obtain ⟨rfl, hpath⟩ := symbol_cons_inj.1 (List.cons.inj heq).2
    obtain ⟨rfl, hsame⟩ := determined_path path path' more more' hpath (hmore.mono (by simp))
      (hmore'.mono (by simp))
    exact ⟨rfl, hsame⟩
  | literal v' p' => cases v' <;> cases hhead
  | _ => cases hhead

theorem unique_select (p q : Span) {c : ExprTree} (r : Span) {t : ExprTree} (s : Span)
    {f : ExprTree} (z : Span) (hc : c.Unique) (ht : t.Unique) (hf : f.Unique) :
    (select p q c r t s f z).Unique := by
  intro t' more more' heq _ _
  have hhead := head_eq heq
  cases t' with
  | select p' q' c' r' t' s' f' z' =>
    cases hhead
    simp only [lexemes, List.cons_append, List.append_assoc, List.nil_append] at heq
    obtain ⟨rfl, h₁⟩ := symbol_cons_inj.1 (List.cons.inj heq).2
    obtain ⟨rfl, h₂⟩ := hc c' _ _ h₁ (free_symbol.2 (by decide)) (free_symbol.2 (by decide))
    obtain ⟨rfl, h₃⟩ := symbol_cons_inj.1 h₂
    obtain ⟨rfl, h₄⟩ := ht t' _ _ h₃ (free_symbol.2 (by decide)) (free_symbol.2 (by decide))
    obtain ⟨rfl, h₅⟩ := symbol_cons_inj.1 h₄
    obtain ⟨rfl, h₆⟩ := hf f' _ _ h₅ (free_symbol.2 (by decide)) (free_symbol.2 (by decide))
    obtain ⟨rfl, hsame⟩ := symbol_cons_inj.1 h₆
    exact ⟨rfl, hsame⟩
  | literal v' p' => cases v' <;> cases hhead
  | _ => cases hhead

theorem unique_reduce (p q : Span) (op : Name) (s : Span) {arg : ExprTree}
    (hint : Option (Span × AxesTree)) (z : Span) (harg : arg.Unique) :
    (reduce p q op s arg hint z).Unique := by
  intro t' more more' heq _ _
  have hhead := head_eq heq
  cases t' with
  | reduce p' q' op' s' arg' hint' z' =>
    cases hhead
    simp only [lexemes, List.cons_append, List.append_assoc, List.nil_append] at heq
    obtain ⟨rfl, h₁⟩ := symbol_cons_inj.1 (List.cons.inj heq).2
    obtain ⟨hop, h₂⟩ := List.cons.inj h₁
    cases Name.lexeme_injective hop
    obtain ⟨rfl, h₃⟩ := symbol_cons_inj.1 h₂
    obtain ⟨rfl, h₄⟩ := harg arg' _ _ h₃ (free_hint hint z more) (free_hint hint' z' more')
    obtain ⟨rfl, rfl, hsame⟩ := determined_hint h₄
    exact ⟨rfl, hsame⟩
  | literal v' p' => cases v' <;> cases hhead
  | _ => cases hhead

theorem unique_group (p : Span) {e : ExprTree} (z : Span) (he : e.Unique) :
    (group p e z).Unique := by
  intro t' more more' heq _ _
  have hhead := head_eq heq
  cases t' with
  | group p' e' z' =>
    cases hhead
    rw [lexemes_group, lexemes_group] at heq
    obtain ⟨rfl, -, rfl, hsame⟩ := unique_items he (by simp) (List.cons.inj heq).2
    exact ⟨rfl, hsame⟩
  | tuple p' first' r' second' rest' z' =>
    rw [lexemes_group, lexemes_tuple] at heq
    have hitems := (unique_items he (by simp) (List.cons.inj heq).2).2.1
    cases hitems
  | literal v' p' => cases v' <;> cases hhead
  | _ => cases hhead

theorem unique_tuple (p : Span) {first : ExprTree} (r : Span) {second : ExprTree}
    {rest : Tail ExprTree} (z : Span) (hfirst : first.Unique) (hsecond : second.Unique)
    (hrest : ∀ x ∈ rest, x.2.Unique) : (tuple p first r second rest z).Unique := by
  intro t' more more' heq _ _
  have hhead := head_eq heq
  have hitems : ∀ x ∈ (r, second) :: rest, x.2.Unique := List.forall_mem_cons.2 ⟨hsecond, hrest⟩
  cases t' with
  | group p' e' z' =>
    rw [lexemes_group, lexemes_tuple] at heq
    have hnil := (unique_items hfirst hitems (List.cons.inj heq).2).2.1
    cases hnil
  | tuple p' first' r' second' rest' z' =>
    cases hhead
    rw [lexemes_tuple, lexemes_tuple] at heq
    obtain ⟨rfl, hall, rfl, hsame⟩ := unique_items hfirst hitems (List.cons.inj heq).2
    cases hall
    exact ⟨rfl, hsame⟩
  | literal v' p' => cases v' <;> cases hhead
  | _ => cases hhead

theorem unique_callNone (func : Name) (q z : Span) : (callNone func q z).Unique := by
  intro t' more more' heq _ hmore'
  have hhead := head_eq heq
  cases t' with
  | callNone func' q' z' =>
    cases Name.lexeme_injective hhead
    obtain ⟨rfl, h₁⟩ := symbol_cons_inj.1 (List.cons.inj heq).2
    obtain ⟨rfl, hsame⟩ := symbol_cons_inj.1 h₁
    exact ⟨rfl, hsame⟩
  | call func' q' first' rest' z' =>
    obtain ⟨-, hitems⟩ := symbol_cons_inj.1 (List.cons.inj heq).2
    obtain ⟨ls, hls⟩ := first'.exists_lexemes_eq
    rw [hls] at hitems
    exact absurd (List.cons.inj hitems).1.symm (first'.head_ne_rightParen z)
  | ref name' => exact absurd hmore' (not_afterExpr (List.cons.inj heq).2.symm)
  | literal v' p' => cases v' <;> cases hhead
  | _ => cases hhead

theorem unique_call (func : Name) (q : Span) {first : ExprTree} {rest : Tail ExprTree} (z : Span)
    (hfirst : first.Unique) (hrest : ∀ x ∈ rest, x.2.Unique) :
    (call func q first rest z).Unique := by
  intro t' more more' heq _ hmore'
  have hhead := head_eq heq
  cases t' with
  | callNone func' q' z' =>
    obtain ⟨-, hitems⟩ := symbol_cons_inj.1 (List.cons.inj heq).2
    obtain ⟨ls, hls⟩ := first.exists_lexemes_eq
    rw [hls] at hitems
    exact absurd (List.cons.inj hitems).1 (first.head_ne_rightParen z')
  | call func' q' first' rest' z' =>
    cases Name.lexeme_injective hhead
    rw [lexemes_call, lexemes_call] at heq
    obtain ⟨rfl, hitems⟩ := symbol_cons_inj.1 (List.cons.inj heq).2
    obtain ⟨rfl, rfl, rfl, hsame⟩ := unique_items hfirst hrest hitems
    exact ⟨rfl, hsame⟩
  | ref name' => exact absurd hmore' (not_afterExpr (List.cons.inj heq).2.symm)
  | literal v' p' => cases v' <;> cases hhead
  | _ => cases hhead

theorem unique_ref (name : Name) : (ref name).Unique := by
  intro t' more more' heq hmore _
  have hhead := head_eq heq
  cases t' with
  | callNone func' q' z' =>
    exact absurd hmore (not_afterExpr (List.cons.inj heq).2)
  | call func' q' first' rest' z' =>
    exact absurd hmore (not_afterExpr (List.cons.inj heq).2)
  | ref name' =>
    obtain ⟨hname, hsame⟩ := List.cons.inj heq
    exact ⟨congrArg ref (Name.lexeme_injective hname), hsame⟩
  | literal v' p' => cases v' <;> cases hhead
  | _ => cases hhead

theorem unique (t : ExprTree) : t.Unique := by
  induction t using ExprTree.induction with
  | literal v p => exact unique_literal v p
  | input p q path => exact unique_input p q path
  | select p q c r t s f z hc ht hf => exact unique_select p q r s z hc ht hf
  | reduce p q op s arg hint z harg => exact unique_reduce p q op s hint z harg
  | group p e z he => exact unique_group p z he
  | tuple p first r second rest z hfirst hsecond hrest =>
    exact unique_tuple p r z hfirst hsecond hrest
  | callNone func q z => exact unique_callNone func q z
  | call func q first rest z hfirst hrest => exact unique_call func q z hfirst hrest
  | ref name => exact unique_ref name

end ExprTree

theorem TypeTree.lexeme_injective {t t' : TypeTree} (h : t.lexeme = t'.lexeme) : t = t' := by
  cases t <;> cases t' <;> simp_all [lexeme]

namespace StatementTree

theorem exists_lexemes_eq (t : StatementTree) : ∃ k p rest, t.lexemes = keyword k p :: rest := by
  cases t <;> exact ⟨_, _, _, rfl⟩

theorem unique (t : StatementTree) : Determined [.dot, .leftParen] lexemes t := by
  intro t' more more' heq hmore hmore'
  cases t with
  | input p path q axes dtype =>
    cases t' with
    | input p' path' q' axes' dtype' =>
      simp only [lexemes, List.cons_append, List.append_assoc, List.nil_append] at heq
      obtain ⟨hp, h₁⟩ := List.cons.inj heq
      cases hp
      obtain ⟨rfl, h₂⟩ := determined_path path path' _ _ h₁ (free_symbol.2 (by decide))
        (free_symbol.2 (by decide))
      obtain ⟨rfl, h₃⟩ := symbol_cons_inj.1 h₂
      obtain ⟨rfl, h₄⟩ := determined_axes axes axes' _ _ h₃ (by simp [Free]) (by simp [Free])
      obtain ⟨hdtype, hsame⟩ := List.cons.inj h₄
      cases TypeTree.lexeme_injective hdtype
      exact ⟨rfl, hsame⟩
    | declaration kind' p' name' r' body' =>
      have hhead := (List.cons.inj heq).1
      cases kind' <;> cases hhead
  | declaration kind p name r body =>
    cases t' with
    | input p' path' q' axes' dtype' =>
      have hhead := (List.cons.inj heq).1
      cases kind <;> cases hhead
    | declaration kind' p' name' r' body' =>
      obtain ⟨hhead, h₁⟩ := List.cons.inj heq
      obtain ⟨hname, h₂⟩ := List.cons.inj h₁
      cases Name.lexeme_injective hname
      obtain ⟨rfl, h₃⟩ := symbol_cons_inj.1 h₂
      obtain ⟨rfl, hsame⟩ := body.unique body' more more' h₃ hmore hmore'
      cases kind <;> cases kind' <;> cases hhead <;> exact ⟨rfl, hsame⟩

end StatementTree

namespace ModuleTree

theorem afterExpr_lexemes (t : ModuleTree) : AfterExpr (lexemes t) := by
  cases t with
  | nil => exact free_nil _
  | cons s t =>
    obtain ⟨k, p, rest, hs⟩ := s.exists_lexemes_eq
    rw [lexemes, List.flatMap_cons, hs]
    exact free_keyword _ k p _

theorem lexemes_cons_ne_nil (s : StatementTree) (t : ModuleTree) : lexemes (s :: t) ≠ [] := by
  obtain ⟨k, p, rest, hs⟩ := s.exists_lexemes_eq
  rw [lexemes, List.flatMap_cons, hs]
  exact List.cons_ne_nil _ _

theorem lexemes_injective : Function.Injective lexemes := by
  intro t
  induction t with
  | nil =>
    intro t' h
    cases t' with
    | nil => rfl
    | cons s' t' => exact absurd h.symm (lexemes_cons_ne_nil s' t')
  | cons s t ih =>
    intro t' h
    cases t' with
    | nil => exact absurd h (lexemes_cons_ne_nil s t)
    | cons s' t' =>
      obtain ⟨rfl, hrest⟩ := s.unique s' (lexemes t) (lexemes t') h (afterExpr_lexemes t)
        (afterExpr_lexemes t')
      rw [ih hrest]

end ModuleTree

/-- A module is read from tokens, without a syntax error, if and only if a derivation spells them
and stands for the module; and tokens have at most one derivation, their groups included. -/
theorem parseLexemes_exact : Function.Injective ModuleTree.lexemes ∧
    ∀ (length : Nat) (ls : List Lexeme) (m : SourceModule), parseLexemes length ls = .ok m ↔
      ∃ t : ModuleTree, t.lexemes = ls ∧ t.module length = m := by
  refine ⟨ModuleTree.lexemes_injective, fun length ls m => ?_⟩
  rw [parseLexemes_eq_ok_iff, isModule_iff]

end LoopNest.Grammar
