import LoopNest.Proofs.Source.Grammar
import Mathlib.Data.List.Basic

/-! What the grammar derives is read. A reading takes just the tokens of a derivation from any text
that goes on after them with a token that cannot belong to it, and it gives what they spell. -/
namespace LoopNest.Parser

open Lexeme Grammar

/-- Where the tokens `ls` come next, and after them what `follow` allows, the reading takes just
`ls` and gives `a`. The token before them ends at `last`. -/
def Takes {α : Type} (last : Nat) (p : Reading α) (ls : List Lexeme)
    (follow : List Lexeme → Prop) (a : α) : Prop :=
  ∀ tried more, follow more →
    ∃ tried', p ⟨ls ++ more, tried, last⟩ = .ok (a, ⟨more, tried', stopAfter last ls⟩)

/-- None of these symbols comes next. -/
def Free (ss : List Symbol) (more : List Lexeme) : Prop :=
  ∀ s ∈ ss, ∀ l ∈ more.head?, l.token ≠ .symbol s

@[simp] theorem free_nil (ss : List Symbol) : Free ss [] := by
  intro s _ l hl
  cases hl

@[simp] theorem free_symbol {ss : List Symbol} {s : Symbol} {p : Span} {more : List Lexeme} :
    Free ss (symbol s p :: more) ↔ s ∉ ss := by
  simp only [Free, List.head?_cons, Option.mem_some_iff, forall_eq', ne_eq, Token.symbol.injEq]
  exact ⟨fun h hs => h s hs rfl, fun h s' hs' he => h (he ▸ hs')⟩

@[simp] theorem free_keyword (ss : List Symbol) (k : Keyword) (p : Span) (more : List Lexeme) :
    Free ss (keyword k p :: more) := by
  simp [Free]

theorem Free.mono {ss ss' : List Symbol} {more : List Lexeme} (h : Free ss more) (hss : ss' ⊆ ss) :
    Free ss' more :=
  fun s hs => h s (hss hs)

theorem Free.not_admits {ss : List Symbol} {more : List Lexeme} (h : Free ss more) {s : Symbol}
    (hs : s ∈ ss) : ∀ l ∈ more.head?, [Expectation.symbol s].any (·.admits l.token) = false := by
  rintro ⟨t, p⟩ hl
  have ht := h s hs _ hl
  cases t with
  | symbol s' =>
    have hne : s ≠ s' := fun he => ht (congrArg Token.symbol he.symm)
    simp [Expectation.admits, hne]
  | _ => rfl

section Steps

variable {α β : Type} {last : Nat} {p : Reading α} {ls ls' : List Lexeme} {a : α} {b : β}
  {follow follow' : List Lexeme → Prop} {es : List Expectation}

theorem takes_pure : Takes last (pure a) [] follow a :=
  fun tried _ _ => ⟨tried, rfl⟩

theorem Takes.imp (h : Takes last p ls follow a) (hfollow : ∀ more, follow' more → follow more) :
    Takes last p ls follow' a :=
  fun tried more hmore => h tried more (hfollow more hmore)

theorem Takes.bind {f : α → Reading β} (h : Takes last p ls follow a)
    (hf : Takes (stopAfter last ls) (f a) ls' follow' b)
    (hfollow : ∀ more, follow' more → follow (ls' ++ more)) :
    Takes last (p >>= f) (ls ++ ls') follow' b := by
  intro tried more hmore
  obtain ⟨tried₁, h₁⟩ := h tried (ls' ++ more) (hfollow more hmore)
  obtain ⟨tried₂, h₂⟩ := hf tried₁ more hmore
  refine ⟨tried₂, ?_⟩
  change (p _ >>= fun x => f x.1 x.2) = _
  rw [List.append_assoc, h₁, stopAfter_append, ← h₂]
  rfl

theorem Takes.finish {f : α → Reading β} (h : Takes last p ls follow a)
    (hf : Takes (stopAfter last ls) (f a) [] follow b) : Takes last (p >>= f) ls follow b := by
  rw [← List.append_nil ls]
  exact h.bind hf fun _ hmore => hmore

theorem takes_require {f : α → Reading β} (hf : Takes last (f a) ls follow b) :
    Takes last (require (some a) >>= f) ls follow b := hf

/-- What an attempt has to give it gives. -/
theorem Takes.required {p : Reading (Option α)} {f : α → Reading β}
    (h : Takes last p ls follow (some a)) (hf : Takes (stopAfter last ls) (f a) ls' follow' b)
    (hfollow : ∀ more, follow' more → follow (ls' ++ more)) :
    Takes last (p >>= fun x => require x >>= f) (ls ++ ls') follow' b :=
  h.bind (takes_require hf) hfollow

theorem takes_offer_some {l : Lexeme} {f : Option Lexeme → Reading β}
    (h : es.any (·.admits l.token) = true) (hf : Takes l.span.stop (f (some l)) ls follow b) :
    Takes last (offer es >>= f) (l :: ls) follow b := by
  intro tried more hmore
  obtain ⟨tried', h'⟩ := hf [] more hmore
  refine ⟨tried', ?_⟩
  change (offer es ⟨l :: (ls ++ more), tried, last⟩ >>= fun x => f x.1 x.2) = _
  simp only [offer, h, if_true]
  exact h'

theorem takes_offer_none {f : Option Lexeme → Reading β}
    (h : ∀ more, follow more → ∀ l ∈ (ls ++ more).head?, es.any (·.admits l.token) = false)
    (hf : Takes last (f none) ls follow b) : Takes last (offer es >>= f) ls follow b := by
  intro tried more hmore
  obtain ⟨tried', h'⟩ := hf (tried ++ es) more hmore
  refine ⟨tried', ?_⟩
  have hoffer : offer es ⟨ls ++ more, tried, last⟩ =
      .ok (none, ⟨ls ++ more, tried ++ es, last⟩) := by
    cases hnext : ls ++ more with
    | nil => rfl
    | cons l rest =>
      have hl := h more hmore l (by rw [hnext]; rfl)
      simp [offer, hl]
  change (offer es ⟨ls ++ more, tried, last⟩ >>= fun x => f x.1 x.2) = _
  rw [hoffer]
  exact h'

theorem takes_expect {l : Lexeme} {f : Lexeme → Reading β}
    (h : es.any (·.admits l.token) = true) (hf : Takes l.span.stop (f l) ls follow b) :
    Takes last (expect es >>= f) (l :: ls) follow b := by
  have hexpect : expect es >>= f = offer es >>= fun x => require x >>= f := bind_assoc ..
  rw [hexpect]
  exact takes_offer_some h hf

theorem takes_spanFrom {start : Span} {f : Span → Reading β}
    (hf : Takes last (f ⟨start.start, last⟩) ls follow b) :
    Takes last (spanFrom start >>= f) ls follow b := hf

end Steps

section Lists

variable {α : Type}

/-- The items that go on after an item. -/
def more (sep : Symbol) (item : Nat → Reading α) : Nat → Reading (List α)
  | 0 => pure []
  | fuel + 1 => do
    match ← offer [.symbol sep] with
    | some _ =>
      let a ← item fuel
      return a :: (← more sep item fuel)
    | none => return []

theorem moreSegments_eq (fuel : Nat) : moreSegments fuel = more .dot (fun _ => segment) fuel := by
  induction fuel with
  | zero => rfl
  | succ fuel ih =>
    rw [moreSegments, ih]
    rfl

theorem moreNames_eq (fuel : Nat) : moreNames fuel = more .comma (fun _ => name) fuel := by
  induction fuel with
  | zero => rfl
  | succ fuel ih =>
    rw [moreNames, ih]
    rfl

theorem moreExprs_eq (fuel : Nat) :
    moreExprs fuel = more .comma (fun fuel => do require (← expr? fuel)) fuel := by
  induction fuel with
  | zero => rfl
  | succ fuel ih =>
    rw [moreExprs, ih, more]
    refine bind_congr fun next => ?_
    cases next with
    | none => rfl
    | some l => exact (bind_assoc ..).symm

theorem takes_more {sep : Symbol} {Item : List Lexeme → α → Prop} {item : Nat → Reading α}
    {ls : List Lexeme} {as : List α} (ss : List Symbol) (hsep : sep ∉ ss)
    (h : Repeated sep Item ls as) (last fuel : Nat) (hfuel : ls.length ≤ fuel)
    (hitem : ∀ fuel' < fuel, ∀ last ls a, Item ls a → ls.length ≤ fuel' →
      Takes last (item fuel') ls (Free ss) a) :
    Takes last (more sep item fuel) ls (Free (sep :: ss)) as := by
  induction h generalizing last fuel with
  | nil =>
    cases fuel with
    | zero => exact takes_pure
    | succ fuel =>
      exact takes_offer_none (fun _ hmore => hmore.not_admits List.mem_cons_self) takes_pure
  | @cons ls rest a as p h hrest ih =>
    cases fuel with
    | zero => simp at hfuel
    | succ fuel =>
      simp only [List.length_cons, List.length_append] at hfuel
      refine takes_offer_some (by simp [Expectation.admits]) ?_
      refine (hitem fuel (by omega) _ ls a h (by omega)).bind ?_ ?_
      · exact (ih _ fuel (by omega) fun fuel' hlt => hitem fuel' (by omega)).finish takes_pure
      -- what follows an item is the next separator, or else what follows the whole list
      · intro more hmore
        cases hrest with
        | nil => exact hmore.mono (List.subset_cons_self _ _)
        | cons => exact free_symbol.2 hsep

end Lists

section Parts

variable {last fuel : Nat} {ls : List Lexeme} {follow : List Lexeme → Prop}

theorem takes_name {n : String} (h : IsName ls n) : Takes last name ls (fun _ => True) n := by
  cases h with
  | ident n p => exact takes_expect rfl takes_pure

theorem takes_segment {s : String} (h : IsSegment ls s) :
    Takes last segment ls (fun _ => True) s := by
  cases h with
  | ident n p => exact takes_expect rfl takes_pure
  | keyword k p =>
    refine takes_expect ?_ takes_pure
    rcases k with _ | _ | _ | _ | _ | b
    case boolean => cases b <;> rfl
    all_goals rfl

theorem takes_path {path : FieldPath} (h : IsPath ls path) (hfuel : ls.length ≤ fuel) :
    Takes last (Parser.path fuel) ls (Free [.dot]) path := by
  obtain @⟨ls, rest, s, ss, h, hrest⟩ := h
  rw [List.length_append] at hfuel
  refine (takes_segment h).bind ?_ fun _ _ => trivial
  rw [moreSegments_eq]
  refine (takes_more [] (by simp) hrest _ fuel (by omega) ?_).finish takes_pure
  exact fun _ _ _ _ _ hitem _ => (takes_segment hitem).imp fun _ _ => trivial

theorem takes_axes {a : Axes} (h : IsAxes ls a) (hfuel : ls.length ≤ fuel) :
    Takes last (axes fuel) ls (fun _ => True) a := by
  cases h with
  | none p q =>
    refine takes_expect rfl (takes_offer_none ?_ (takes_expect rfl takes_pure))
    rintro _ _ _ ⟨rfl⟩
    rfl
  | @some ls rest n ns p q h hrest =>
    cases h with
    | ident n r =>
      simp only [List.length_cons, List.length_append] at hfuel
      refine takes_expect rfl (takes_offer_some rfl ?_)
      rw [moreNames_eq]
      refine (takes_more [] (by simp) hrest _ fuel (by omega) ?_).bind
        (takes_expect rfl takes_pure) fun _ _ => free_symbol.2 (by decide)
      exact fun _ _ _ _ _ hitem _ => (takes_name hitem).imp fun _ _ => trivial

theorem takes_dtype {d : Lexeme} {t : DType} (h : IsDType d t) :
    Takes last dtype [d] follow t := by
  cases h <;> exact takes_expect rfl takes_pure

end Parts

section Expressions

/-- How an expression ends. -/
abbrev AfterExpr : List Lexeme → Prop := Free [.dot, .leftParen]

/-- Up to that many steps, expressions are read. -/
def Complete (fuel : Nat) : Prop :=
  ∀ last ls e, IsExpr ls e → ls.length ≤ fuel → Takes last (expr? fuel) ls AfterExpr (some e)

variable {fuel last : Nat} {ls rest : List Lexeme} {e : SourceExpr} {es : List SourceExpr}

theorem takes_moreExprs (ih : ∀ fuel' < fuel, Complete fuel')
    (h : Repeated .comma IsExpr ls es) (hfuel : ls.length ≤ fuel) :
    Takes last (moreExprs fuel) ls (Free [.comma, .dot, .leftParen]) es := by
  rw [moreExprs_eq]
  refine takes_more _ (by decide) h last fuel hfuel fun fuel' hlt last ls e he hlen => ?_
  exact (ih fuel' hlt last ls e he hlen).finish takes_pure

/-- The expressions after the first one of a list, and the bracket that closes it. -/
theorem takes_closing {β : Type} {f : List SourceExpr → Reading β} {b : β}
    {follow : List Lexeme → Prop} {z : Span} (ih : ∀ fuel' < fuel, Complete fuel')
    (h : Repeated .comma IsExpr ls es) (hfuel : ls.length ≤ fuel)
    (hf : Takes z.stop (f es) [] follow b) :
    Takes last (moreExprs fuel >>= fun es => expect [.symbol .rightParen] >>= fun _ => f es)
      (ls ++ [symbol .rightParen z]) follow b :=
  (takes_moreExprs ih h hfuel).bind (takes_expect rfl hf) fun _ _ => free_symbol.2 (by decide)

theorem afterExpr_closing {z : Span} {more : List Lexeme} (h : Repeated .comma IsExpr ls es) :
    AfterExpr (ls ++ [symbol .rightParen z] ++ more) := by
  cases h <;> exact free_symbol.2 (by decide)

theorem takes_hint {β : Type} {f : Option Axes → Reading β} {b : β} {follow : List Lexeme → Prop}
    {hint : Option Axes} {z : Span} (h : IsHint ls hint) (hfuel : ls.length ≤ fuel)
    (hf : Takes z.stop (f hint) [] follow b) :
    Takes last (do
      match ← offer [.symbol .comma] with
      | some _ =>
        let reduced ← axes fuel
        let _ ← expect [.symbol .rightParen]
        f (some reduced)
      | none =>
        let _ ← expect [.symbol .rightParen]
        f none) (ls ++ [symbol .rightParen z]) follow b := by
  cases h with
  | none =>
    refine takes_offer_none ?_ (takes_expect rfl hf)
    rintro _ _ _ ⟨rfl⟩
    rfl
  | some p h =>
    rw [List.length_cons] at hfuel
    refine takes_offer_some rfl ?_
    exact (takes_axes h (by omega)).bind (takes_expect rfl hf) fun _ _ => trivial

theorem afterExpr_hint {hint : Option Axes} {z : Span} {more : List Lexeme} (h : IsHint ls hint) :
    AfterExpr (ls ++ [symbol .rightParen z] ++ more) := by
  cases h <;> exact free_symbol.2 (by decide)

/-- No expression starts with a closing bracket. -/
theorem takes_expr_none (fuel : Nat) : Takes last (expr? fuel) []
    (fun more => ∃ z rest, more = symbol .rightParen z :: rest) none := by
  cases fuel with
  | zero => exact takes_pure
  | succ fuel =>
    refine takes_offer_none ?_ takes_pure
    rintro _ ⟨z, rest, rfl⟩ _ ⟨rfl⟩
    rfl

theorem takes_expr (fuel : Nat) : Complete fuel := by
  -- the later an item stands in a list, the less fuel is left for it
  induction fuel using Nat.strongRecOn with
  | ind fuel ih =>
  intro last ls e h hfuel
  cases fuel with
  | zero => cases h <;> simp at hfuel
  | succ fuel =>
    have hexpr := ih fuel (Nat.lt_succ_self fuel)
    have hless : ∀ fuel' < fuel, Complete fuel' := fun fuel' hlt => ih fuel' (by omega)
    cases h with
    | constant p h => cases h <;> exact takes_offer_some rfl takes_pure
    | @input ls path p q h =>
      simp only [List.length_cons] at hfuel
      refine takes_offer_some rfl (takes_expect rfl ?_)
      refine ((takes_path h (by omega)).imp fun _ hmore => ?_).finish (takes_spanFrom takes_pure)
      exact hmore.mono (by simp)
    | @select cs ts fs c t f p q r s z hc ht hf =>
      simp only [List.length_cons, List.length_append] at hfuel
      refine takes_offer_some rfl (takes_expect rfl ?_)
      refine (hexpr _ cs c hc (by omega)).required (takes_expect rfl ?_)
        fun _ _ => free_symbol.2 (by decide)
      refine (hexpr _ ts t ht (by omega)).required (takes_expect rfl ?_)
        fun _ _ => free_symbol.2 (by decide)
      exact (hexpr _ fs f hf (by omega)).required
        (takes_expect rfl (takes_spanFrom takes_pure)) fun _ _ => free_symbol.2 (by decide)
    | @reduce ls hs arg hint op p q r s z h hhint =>
      simp only [List.length_cons, List.length_append] at hfuel
      refine takes_offer_some rfl (takes_expect rfl ?_)
      refine (takes_name (.ident op r)).bind (takes_expect rfl ?_) fun _ _ => trivial
      have hlen : hs.length ≤ fuel := by omega
      refine (hexpr _ ls arg h (by omega)).required ?_ fun _ _ => afterExpr_hint hhint
      exact takes_hint (f := fun hint => do return some (Expr.reduce (← spanFrom p) op hint arg))
        hhint hlen (takes_spanFrom takes_pure)
    | @group ls e p z h =>
      simp only [List.length_cons, List.length_append] at hfuel
      refine takes_offer_some rfl ?_
      exact (hexpr _ ls e h (by omega)).required
        (takes_closing hless .nil (Nat.zero_le _) takes_pure) fun _ _ => free_symbol.2 (by decide)
    | @tuple ls rest e es p z h hrest hes =>
      simp only [List.length_cons, List.length_append] at hfuel
      refine takes_offer_some rfl ?_
      refine (hexpr _ ls e h (by omega)).required (takes_closing hless hrest (by omega) ?_)
        fun _ _ => afterExpr_closing hrest
      rw [if_neg (by simpa using hes)]
      exact takes_spanFrom takes_pure
    | ref name p =>
      refine takes_offer_some rfl (takes_offer_none (fun _ hmore => ?_) takes_pure)
      exact hmore.not_admits (by simp)
    | callNone func p q z =>
      refine takes_offer_some rfl (takes_offer_some rfl ?_)
      exact (takes_expr_none fuel).bind (takes_expect rfl (takes_spanFrom takes_pure))
        fun more _ => ⟨z, more, rfl⟩
    | @call ls rest e es func p q z h hrest =>
      simp only [List.length_cons, List.length_append] at hfuel
      refine takes_offer_some rfl (takes_offer_some rfl ?_)
      exact (hexpr _ ls e h (by omega)).bind
        (takes_closing hless hrest (by omega) (takes_spanFrom takes_pure))
        fun _ _ => afterExpr_closing hrest

end Expressions

section Statements

variable {fuel last : Nat} {ls : List Lexeme}

theorem IsStatement.cons {s : Statement} (h : IsStatement ls s) : ∃ k p rest,
    ls = keyword k p :: rest ∧ k ∈ [Keyword.input, .value, .trait] := by
  cases h with
  | input p => exact ⟨_, p, _, rfl, by decide⟩
  | declaration kind _ p => exact ⟨_, p, _, rfl, by cases kind <;> decide⟩

theorem takes_statement {l : Lexeme} {s : Statement} (h : IsStatement (l :: ls) s)
    (hfuel : ls.length ≤ fuel) : Takes l.span.stop (statement fuel l) ls AfterExpr s := by
  generalize hlist : l :: ls = all at h
  cases h with
  | @input ps as path a d t p q hpath haxes hdtype =>
    cases hlist
    simp only [List.length_append, List.length_cons] at hfuel
    refine (takes_path hpath (by omega)).bind (takes_expect rfl ?_)
      fun _ _ => free_symbol.2 (by decide)
    refine (takes_axes haxes (by omega)).bind ?_ fun _ _ => trivial
    exact (takes_dtype hdtype).finish (takes_spanFrom takes_pure)
  | @declaration ls body kind name p q r h =>
    cases hlist
    simp only [List.length_cons] at hfuel
    have hread : Takes p.stop (declarationStatement fuel kind p)
        (ident name q :: symbol .equals r :: ls) AfterExpr
        (.declaration ⟨name, kind, body, ⟨p.start, stopAfter r.stop ls⟩⟩) := by
      refine (takes_name (.ident name q)).bind (takes_expect rfl ?_) fun _ _ => trivial
      exact (takes_expr fuel _ ls body h (by omega)).finish
        (takes_require (takes_spanFrom takes_pure))
    cases kind <;> exact hread

theorem takes_statements {ss : List Statement} (h : IsStatements ls ss) (last fuel : Nat)
    (hfuel : ls.length ≤ fuel) : Takes last (statements fuel) ls (· = []) ss := by
  induction h generalizing last fuel with
  | nil =>
    cases fuel with
    | zero => exact takes_pure
    | succ fuel =>
      refine takes_offer_none ?_ ?_
      · rintro _ rfl _ ⟨⟩
      · intro tried more hmore
        cases hmore
        exact ⟨tried, rfl⟩
  | @cons ls rest s ss h hrest ih =>
    obtain ⟨k, p, ls, rfl, hk⟩ := IsStatement.cons h
    cases fuel with
    | zero => simp at hfuel
    | succ fuel =>
      simp only [List.length_append, List.length_cons] at hfuel
      refine takes_offer_some ?_ ?_
      · simp at hk
        rcases hk with rfl | rfl | rfl <;> rfl
      · refine (takes_statement h (by omega)).bind ?_ ?_
        · exact (ih _ fuel (by omega)).finish takes_pure
        · rintro _ rfl
          cases hrest with
          | nil => exact free_nil _
          | cons h' =>
            obtain ⟨k, p, ls, rfl, -⟩ := IsStatement.cons h'
            exact free_keyword _ k p _

theorem parseLexemes_of_isModule {length : Nat} {m : SourceModule} (h : IsModule length ls m) :
    parseLexemes length ls = .ok m := by
  obtain ⟨h⟩ := h
  obtain ⟨tried, hread⟩ := takes_statements h 0 (ls.length + 1) (Nat.le_succ _) [] [] rfl
  rw [List.append_nil] at hread
  rw [parseLexemes, StateT.run, hread]
  rfl

end Statements

end LoopNest.Parser
