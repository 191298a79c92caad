import LoopNest.Proofs.Fallible
import LoopNest.Proofs.Source.Parsing

/-! What is read is derived. A reading that succeeds has taken tokens from which the grammar derives
its result. As all that is derived is read, tokens are read as a module if and only if the grammar
derives the module from them. -/
namespace LoopNest.Parser

open Lexeme Grammar

/-- Whatever the reading gives, `P` holds of it and of the tokens that it took. The token before
them ends at `last`. -/
def Gives {α : Type} (last : Nat) (p : Reading α) (P : List Lexeme → α → Prop) : Prop :=
  ∀ c a c', c.last = last → p c = .ok (a, c') →
    ∃ ls, c.rest = ls ++ c'.rest ∧ c'.last = stopAfter last ls ∧ P ls a

theorem offer_eq_ok {es : List Expectation} {c c' : Cursor} {next : Option Lexeme}
    (h : offer es c = .ok (next, c')) :
    (∃ l, next = some l ∧ es.any (·.admits l.token) = true ∧ c.rest = l :: c'.rest ∧
      c'.last = l.span.stop) ∨ next = none ∧ c.rest = c'.rest ∧ c.last = c'.last := by
  unfold offer at h
  cases hrest : c.rest with
  | nil =>
    rw [hrest] at h
    cases h
    exact .inr ⟨rfl, rfl, rfl⟩
  | cons l rest =>
    simp only [hrest] at h
    by_cases hl : es.any (·.admits l.token) = true
    · rw [if_pos hl] at h
      cases h
      exact .inl ⟨l, rfl, hl, rfl, rfl⟩
    · rw [if_neg hl] at h
      cases h
      exact .inr ⟨rfl, rfl, rfl⟩

theorem eq_symbol_of_admits {s : Symbol} {l : Lexeme}
    (h : [Expectation.symbol s].any (·.admits l.token) = true) : l = symbol s l.span := by
  obtain ⟨t, p⟩ := l
  cases t with
  | symbol s' =>
    have hs : s = s' := by simpa [Expectation.admits] using h
    rw [hs]
  | _ => simp [Expectation.admits] at h

theorem exists_eq_ident_of_admits {l : Lexeme}
    (h : [Expectation.ident].any (·.admits l.token) = true) : ∃ n, l = ident n l.span := by
  obtain ⟨t, p⟩ := l
  cases t with
  | ident n => exact ⟨n, rfl⟩
  | _ => simp [Expectation.admits] at h

section Steps

variable {α β : Type} {last : Nat} {p : Reading α} {P : List Lexeme → α → Prop}
  {Q : List Lexeme → β → Prop} {es : List Expectation}

theorem gives_pure {a : α} (h : P [] a) : Gives last (pure a) P := by
  intro c a' c' hlast hread
  cases StateT.pure_eq_ok.1 hread
  exact ⟨[], rfl, hlast, h⟩

theorem gives_refuse : Gives last refuse P := by
  intro c a c' _ hread
  cases hread

theorem Gives.bind {f : α → Reading β} (hp : Gives last p P)
    (hf : ∀ ls a, P ls a → Gives (stopAfter last ls) (f a) fun ls' => Q (ls ++ ls')) :
    Gives last (p >>= f) Q := by
  intro c b c' hlast hread
  obtain ⟨a, c₁, hfirst, hthen⟩ := StateT.bind_eq_ok.1 hread
  obtain ⟨ls, hrest, hstop, ha⟩ := hp c a c₁ hlast hfirst
  obtain ⟨ls', hrest', hstop', hb⟩ := hf ls a ha c₁ b c' hstop hthen
  refine ⟨ls ++ ls', ?_, ?_, hb⟩
  · rw [hrest, hrest', List.append_assoc]
  · rw [hstop', stopAfter_append]

/-- A last step takes no more tokens. -/
theorem Gives.finish {f : α → Reading β} (hp : Gives last p P)
    (hf : ∀ ls a, P ls a → Gives (stopAfter last ls) (f a) fun ls' b => ls' = [] ∧ Q ls b) :
    Gives last (p >>= f) Q := by
  refine hp.bind fun ls a ha c b c' hlast hread => ?_
  obtain ⟨ls', hrest, hstop, rfl, hb⟩ := hf ls a ha c b c' hlast hread
  refine ⟨[], hrest, hstop, ?_⟩
  change Q (ls ++ []) b
  rwa [List.append_nil]

/-- A reading that has to give something does so, or the whole is refused. -/
theorem Gives.required {p : Reading (Option α)} {f : α → Reading β}
    (hp : Gives last p fun ls next => ∀ a, next = some a → P ls a)
    (hf : ∀ ls a, P ls a → Gives (stopAfter last ls) (f a) fun ls' => Q (ls ++ ls')) :
    Gives last (p >>= fun next => require next >>= f) Q := by
  refine hp.bind fun ls next ha => ?_
  cases next with
  | none => exact gives_refuse
  | some a => exact hf ls a (ha a rfl)

theorem gives_offer {f : Option Lexeme → Reading β}
    (hsome : ∀ l, es.any (·.admits l.token) = true →
      Gives l.span.stop (f (some l)) fun ls => Q (l :: ls))
    (hnone : Gives last (f none) Q) : Gives last (offer es >>= f) Q := by
  intro c b c' hlast hread
  obtain ⟨next, c₁, hoffer, hthen⟩ := StateT.bind_eq_ok.1 hread
  rcases offer_eq_ok hoffer with ⟨l, rfl, hl, hrest, hstop⟩ | ⟨rfl, hrest, hstop⟩
  · obtain ⟨ls, hrest', hstop', hb⟩ := hsome l hl c₁ b c' hstop hthen
    refine ⟨l :: ls, ?_, hstop', hb⟩
    rw [hrest, hrest', List.cons_append]
  · rw [hrest]
    exact hnone c₁ b c' (hstop.symm.trans hlast) hthen

theorem gives_expect {f : Lexeme → Reading β}
    (hf : ∀ l, es.any (·.admits l.token) = true →
      Gives l.span.stop (f l) fun ls => Q (l :: ls)) : Gives last (expect es >>= f) Q := by
  have hexpect : expect es >>= f = offer es >>= fun x => require x >>= f := bind_assoc ..
  rw [hexpect]
  exact gives_offer hf gives_refuse

theorem gives_symbol {s : Symbol} {f : Lexeme → Reading β}
    (hf : ∀ p, Gives p.stop (f (symbol s p)) fun ls => Q (symbol s p :: ls)) :
    Gives last (expect [.symbol s] >>= f) Q := by
  refine gives_expect fun l hl => ?_
  rw [eq_symbol_of_admits hl]
  exact hf l.span

theorem gives_spanFrom {start : Span} {f : Span → Reading β}
    (hf : Gives last (f ⟨start.start, last⟩) Q) : Gives last (spanFrom start >>= f) Q := by
  intro c b c' hlast hread
  subst hlast
  exact hf c b c' rfl hread

end Steps

section Parts

variable {last fuel : Nat}

theorem gives_name : Gives last name IsName := by
  refine gives_expect fun l hl => gives_pure ?_
  obtain ⟨n, hl⟩ := exists_eq_ident_of_admits hl
  rw [hl]
  exact .ident n l.span

theorem gives_segment : Gives last segment IsSegment := by
  refine gives_expect fun l hl => gives_pure ?_
  obtain ⟨t, p⟩ := l
  cases t with
  | ident n => exact .ident n p
  | keyword k => exact .keyword k p
  | _ => simp [Keyword.all, Expectation.admits] at hl

theorem gives_more {α : Type} {sep : Symbol} {Item : List Lexeme → α → Prop}
    {item : Nat → Reading α} (fuel : Nat)
    (hitem : ∀ fuel' < fuel, ∀ last, Gives last (item fuel') Item) (last : Nat) :
    Gives last (more sep item fuel) (Repeated sep Item) := by
  induction fuel generalizing last with
  | zero => exact gives_pure .nil
  | succ fuel ih =>
    refine gives_offer (fun l hl => ?_) (gives_pure .nil)
    rw [eq_symbol_of_admits hl]
    refine (hitem fuel (Nat.lt_succ_self fuel) _).bind fun ls a ha => ?_
    refine (ih (fun fuel' hlt => hitem fuel' (by omega)) _).finish fun rest as has => ?_
    exact gives_pure ⟨rfl, .cons l.span ha has⟩

theorem gives_path : Gives last (Parser.path fuel) IsPath := by
  refine gives_segment.bind fun ls s hs => ?_
  rw [moreSegments_eq]
  refine (gives_more fuel (fun _ _ _ => gives_segment) _).finish fun rest ss hss => ?_
  exact gives_pure ⟨rfl, .intro hs hss⟩

theorem gives_axes : Gives last (axes fuel) IsAxes := by
  refine gives_symbol fun p => gives_offer (fun l hl => ?_) ?_
  · obtain ⟨n, hl⟩ := exists_eq_ident_of_admits hl
    rw [hl, moreNames_eq]
    refine (gives_more fuel (fun _ _ _ => gives_name) _).bind fun rest ns hns => ?_
    exact gives_symbol fun q => gives_pure (.some p q (.ident n l.span) hns)
  · exact gives_symbol fun q => gives_pure (.none p q)

theorem isDType_of_ofName? {n : String} {t : DType} (h : DType.ofName? n = some t) (p : Span) :
    IsDType (ident n p) t := by
  unfold DType.ofName? at h
  split at h <;> cases h
  · exact .integer p
  · exact .float p
  · exact .string p
  · exact .boolean p

theorem gives_dtype : Gives last dtype fun ls t => ∃ d, ls = [d] ∧ IsDType d t := by
  refine gives_expect fun l hl => ?_
  obtain ⟨n, hl⟩ := exists_eq_ident_of_admits hl
  rw [hl]
  dsimp only
  have hword : word (ident n l.span) = n := rfl
  rw [hword]
  cases ht : DType.ofName? n with
  | none =>
    intro c a c' _ hread
    cases hread
  | some t => exact gives_pure ⟨_, rfl, isDType_of_ofName? ht l.span⟩

end Parts

section Expressions

/-- Up to that many steps, what is read as an expression is derived; where there is none, nothing is
taken. -/
def Sound (fuel : Nat) : Prop :=
  ∀ last, Gives last (expr? fuel) fun ls next => next.elim (ls = []) (IsExpr ls)

theorem Sound.required {fuel last : Nat} (h : Sound fuel) :
    Gives last (expr? fuel) fun ls next => ∀ e, next = some e → IsExpr ls e := by
  intro c next c' hlast hread
  obtain ⟨ls, hrest, hstop, hnext⟩ := h last c next c' hlast hread
  refine ⟨ls, hrest, hstop, fun e he => ?_⟩
  rw [he] at hnext
  exact hnext

theorem gives_moreExprs {fuel : Nat} (ih : ∀ fuel' < fuel, Sound fuel') (last : Nat) :
    Gives last (moreExprs fuel) (Repeated .comma IsExpr) := by
  rw [moreExprs_eq]
  refine gives_more fuel (fun fuel' hlt last => ?_) last
  refine (ih fuel' hlt).required.finish fun ls next he => ?_
  cases next with
  | none => exact gives_refuse
  | some e => exact gives_pure ⟨rfl, he e rfl⟩

theorem gives_hint {β : Type} {fuel last : Nat} {f : Option Axes → Reading β}
    {Q : List Lexeme → β → Prop}
    (hf : ∀ ls hint z, IsHint ls hint → Gives z.stop (f hint) fun ls' =>
      Q (ls ++ symbol .rightParen z :: ls')) :
    Gives last (do
      match ← offer [.symbol .comma] with
      | some _ =>
        let reduced ← axes fuel
        let _ ← expect [.symbol .rightParen]
        f (some reduced)
      | none =>
        let _ ← expect [.symbol .rightParen]
        f none) Q := by
  refine gives_offer (fun l hl => ?_) (gives_symbol fun z => hf [] none z .none)
  rw [eq_symbol_of_admits hl]
  refine gives_axes.bind fun ls a ha => gives_symbol fun z => ?_
  exact hf (symbol .comma l.span :: ls) (some a) z (.some l.span ha)

theorem gives_expr (fuel : Nat) : Sound fuel := by
  induction fuel using Nat.strongRecOn with
  | ind fuel ih =>
  intro last
  cases fuel with
  | zero => exact gives_pure rfl
  | succ fuel =>
    have hexpr : ∀ last, Gives last (expr? fuel) fun ls next => ∀ e, next = some e → IsExpr ls e :=
      fun _ => (ih fuel (Nat.lt_succ_self fuel)).required
    have hmore := gives_moreExprs fun fuel' (hlt : fuel' < fuel) => ih fuel' (by omega)
    refine gives_offer (fun l hl => ?_) (gives_pure rfl)
    obtain ⟨t, p⟩ := l
    -- the first token decides which rule the expression comes from
    cases t with
    | int n => exact gives_pure (.constant p (.integer n))
    | float x => exact gives_pure (.constant p (.float x))
    | str s => exact gives_pure (.constant p (.string s))
    | ident n =>
      refine gives_offer (fun l hl => ?_) (gives_pure (.ref n p))
      rw [eq_symbol_of_admits hl]
      refine (ih fuel (Nat.lt_succ_self fuel) _).bind fun ls next he => ?_
      cases next with
      | none =>
        cases he
        exact gives_symbol fun z => gives_spanFrom (gives_pure (.callNone n p l.span z))
      | some e =>
        refine (hmore _).bind fun rest es hes => gives_symbol fun z => ?_
        exact gives_spanFrom (gives_pure (.call n p l.span z he hes))
    | keyword k =>
      cases k with
      | boolean b => exact gives_pure (.constant p (.boolean b))
      | input =>
        refine gives_symbol fun q => gives_path.finish fun ls path hpath => ?_
        exact gives_spanFrom (gives_pure ⟨rfl, .input p q hpath⟩)
      | select =>
        refine gives_symbol fun q => (hexpr _).required fun cs c hc => ?_
        refine gives_symbol fun r => (hexpr _).required fun ts t ht => ?_
        refine gives_symbol fun s => (hexpr _).required fun fs f hf => ?_
        exact gives_symbol fun z => gives_spanFrom (gives_pure (.select p q r s z hc ht hf))
      | reduce =>
        refine gives_symbol fun q => gives_name.bind fun _ op hop => ?_
        obtain ⟨op, r⟩ := hop
        refine gives_symbol fun s => (hexpr _).required fun ls arg harg => ?_
        refine gives_hint (f := fun hint => do
          return some (Expr.reduce (← spanFrom p) op hint arg)) fun hs hint z hhint => ?_
        exact gives_spanFrom (gives_pure (.reduce op p q r s z harg hhint))
      | value => simp [exprStarts, Expectation.admits] at hl
      | trait => simp [exprStarts, Expectation.admits] at hl
    | symbol s =>
      cases s with
      | leftParen =>
        refine (hexpr _).required fun ls e he => (hmore _).bind fun rest es hes => ?_
        refine gives_symbol fun z => ?_
        cases es with
        | nil =>
          cases hes
          exact gives_pure (.group p z he)
        | cons e' es' =>
          exact gives_spanFrom (gives_pure (.tuple p z he hes (List.cons_ne_nil e' es')))
      | _ => simp [exprStarts, Expectation.admits] at hl

end Expressions

section Statements

variable {fuel : Nat}

theorem gives_inputStatement (p : Span) :
    Gives p.stop (inputStatement fuel p) fun ls s => IsStatement (keyword .input p :: ls) s := by
  refine gives_path.bind fun ps path hpath => gives_symbol fun q => ?_
  refine gives_axes.bind fun as a ha => gives_dtype.finish fun _ t ht => ?_
  obtain ⟨d, rfl, hd⟩ := ht
  exact gives_spanFrom (gives_pure ⟨rfl, .input p q hpath ha hd⟩)

theorem gives_declarationStatement (kind : DeclKind) (p : Span) :
    Gives p.stop (declarationStatement fuel kind p) fun ls s =>
      IsStatement (keyword kind.keyword p :: ls) s := by
  refine gives_name.bind fun _ n hn => gives_symbol fun r => ?_
  obtain ⟨n, q⟩ := hn
  refine (gives_expr fuel).required.required fun ls e he => gives_spanFrom (gives_pure ?_)
  rw [List.append_nil]
  exact .declaration kind n p q r he

theorem gives_statement {l : Lexeme} (hl : statementStarts.any (·.admits l.token) = true) :
    Gives l.span.stop (statement fuel l) fun ls s => IsStatement (l :: ls) s := by
  obtain ⟨t, p⟩ := l
  cases t with
  | keyword k =>
    cases k with
    | input => exact gives_inputStatement p
    | value => exact gives_declarationStatement .value p
    | trait => exact gives_declarationStatement .trait p
    | _ => simp [statementStarts, Expectation.admits] at hl
  | _ => simp [statementStarts, Expectation.admits] at hl

/-- The statements are a first one with others after it, or the text is at its end. -/
theorem statements_eq_ok {c c' : Cursor} {ss : List Statement}
    (h : statements (fuel + 1) c = .ok (ss, c')) :
    (∃ ls s ss' c₂, IsStatement ls s ∧ ls ≠ [] ∧ c.rest = ls ++ c₂.rest ∧
      statements fuel c₂ = .ok (ss', c') ∧ ss = s :: ss') ∨
    c.rest = [] ∧ c'.rest = [] ∧ ss = [] := by
  obtain ⟨next, c₁, hoffer, hthen⟩ := StateT.bind_eq_ok.1 h
  rcases offer_eq_ok hoffer with ⟨l, rfl, hl, hrest, hstop⟩ | ⟨rfl, hrest, -⟩
  · obtain ⟨s, c₂, hs, hthen⟩ := StateT.bind_eq_ok.1 hthen
    obtain ⟨ss', c₃, hss, hend⟩ := StateT.bind_eq_ok.1 hthen
    cases StateT.pure_eq_ok.1 hend
    obtain ⟨ls, hrest', -, hstatement⟩ := gives_statement hl c₁ s c₂ hstop hs
    rw [hrest'] at hrest
    exact .inl ⟨l :: ls, s, ss', c₂, hstatement, List.cons_ne_nil l ls, hrest, hss, rfl⟩
  · obtain ⟨_, c₂, hend, hthen⟩ := StateT.bind_eq_ok.1 hthen
    cases StateT.pure_eq_ok.1 hthen
    unfold endOfText at hend
    cases hmore : c₁.rest with
    | nil =>
      rw [hmore] at hend
      cases hend
      exact .inr ⟨hrest.trans hmore, hmore, rfl⟩
    | cons l rest =>
      rw [hmore] at hend
      cases hend

/-- With steps left to see the end of the text, the statements are all that it has. -/
theorem isStatements_of_statements {c c' : Cursor} {ss : List Statement}
    (hfuel : c.rest.length < fuel) (h : statements fuel c = .ok (ss, c')) :
    IsStatements c.rest ss ∧ c'.rest = [] := by
  induction fuel generalizing c ss with
  | zero => exact absurd hfuel (Nat.not_lt_zero _)
  | succ fuel ih =>
    rcases statements_eq_ok h with ⟨ls, s, ss', c₂, hs, hne, hrest, hss, rfl⟩ | ⟨hrest, hend, rfl⟩
    · have hpos := List.length_pos_iff.2 hne
      rw [hrest, List.length_append] at hfuel
      obtain ⟨hstatements, hend⟩ := ih (by omega) hss
      exact ⟨hrest ▸ .cons hs hstatements, hend⟩
    · exact ⟨hrest ▸ .nil, hend⟩

/-- Tokens are read as a module if and only if the grammar derives it from them. -/
theorem parseLexemes_eq_ok_iff {length : Nat} {ls : List Lexeme} {m : SourceModule} :
    parseLexemes length ls = .ok m ↔ IsModule length ls m := by
  refine ⟨fun h => ?_, parseLexemes_of_isModule⟩
  obtain ⟨⟨ss, c⟩, hread, hm⟩ := Except.bind_eq_ok.1 h
  cases hm
  have hstatements : statements (ls.length + 1) ⟨ls, [], 0⟩ = .ok (ss, c) := hread
  have hfuel : (⟨ls, [], 0⟩ : Cursor).rest.length < ls.length + 1 := Nat.lt_succ_self _
  exact .intro (isStatements_of_statements hfuel hstatements).1

end Statements

end LoopNest.Parser

/-- A text is read without errors if nothing in it is stray and its tokens are a module. -/
theorem LoopNest.SourceReading.errors_eq_nil_iff {r : SourceReading} :
    r.errors = [] ↔ r.strays = [] ∧ ∃ m, r.result = .ok m := by
  obtain ⟨length, strays, result⟩ := r
  cases result <;> simp [SourceReading.errors]
