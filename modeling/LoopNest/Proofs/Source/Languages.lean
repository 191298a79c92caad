import Mathlib.Order.FixedPoints
import LoopNest.Proofs.Source.Futures

/-! The languages of paths, axis vectors, expressions, statements and modules, as the parser reads
them: each of its functions deals with the continuations that start with a word of its language. -/
namespace LoopNest.Parser

open Expectation
open scoped Computability

section Languages

def segments : Language Token := oneOf (.ident :: Keyword.all.map .keyword)

def paths : Language Token := segments * (oneOf [.symbol .dot] * segments)∗

def axisVectors : Language Token :=
  oneOf [.symbol .leftBracket] *
    (oneOf [.ident] * ((oneOf [.symbol .comma] * oneOf [.ident])∗ * oneOf [.symbol .rightBracket]) +
      oneOf [.symbol .rightBracket])

def typeNames : Language Token := {ts | ∃ name t, DType.ofName? name = some t ∧ ts = [.ident name]}

/-- The items of a list and the bracket that closes it, after its first item. -/
def closing (L : Language Token) : Language Token :=
  (oneOf [.symbol .comma] * L)∗ * oneOf [.symbol .rightParen]

/-- What follows a keyword at the start of an expression, if `L` are the expressions inside. -/
def afterKeyword (L : Language Token) : Keyword → Language Token
  | .boolean _ => 1
  | .input => oneOf [.symbol .dot] * paths
  | .select => oneOf [.symbol .leftParen] * (L * (oneOf [.symbol .comma] *
      (L * (oneOf [.symbol .comma] * (L * oneOf [.symbol .rightParen])))))
  | .reduce => oneOf [.symbol .leftParen] * (oneOf [.ident] * (oneOf [.symbol .comma] *
      (L * (oneOf [.symbol .comma] * (axisVectors * oneOf [.symbol .rightParen]) +
        oneOf [.symbol .rightParen]))))
  | .value | .trait => 0

/-- What follows the first token of an expression, if `L` are the expressions inside. -/
def afterStart (L : Language Token) : Token → Language Token
  | .int _ | .float _ | .str _ => 1
  | .keyword k => afterKeyword L k
  | .symbol s => if s = .leftParen then L * closing L else 0
  | .ident _ => oneOf [.symbol .leftParen] * (L * closing L + oneOf [.symbol .rightParen]) + 1

theorem afterStart_mono {L M : Language Token} (h : L ≤ M) (t : Token) :
    afterStart L t ≤ afterStart M t := by
  have hclosing : closing L ≤ closing M := by
    unfold closing
    gcongr
  cases t with
  | keyword k => cases k <;> simp only [afterStart, afterKeyword] <;> gcongr
  | symbol s => simp only [afterStart]; split_ifs <;> gcongr
  | ident n => simp only [afterStart]; gcongr
  | _ => exact le_refl _

/-- A token with which an expression starts, and what follows it. -/
def exprStep : Language Token →o Language Token where
  toFun L := {ts | ∃ t us, ts = t :: us ∧ t.Readable ∧ exprStarts.any (·.admits t) = true ∧
    us ∈ afterStart L t}
  monotone' := by
    rintro L M h ts ⟨t, us, hts, ht, hadmits, hus⟩
    exact ⟨t, us, hts, ht, hadmits, afterStart_mono h t hus⟩

def exprs : Language Token := OrderHom.lfp exprStep

theorem mem_exprs {ts : List Token} : ts ∈ exprs ↔ ∃ t us, ts = t :: us ∧ t.Readable ∧
    exprStarts.any (·.admits t) = true ∧ us ∈ afterStart exprs t := by
  change ts ∈ exprs ↔ ts ∈ exprStep exprs
  rw [show exprStep exprs = exprs from OrderHom.map_lfp exprStep]

def declarations : Language Token := oneOf [.ident] * (oneOf [.symbol .equals] * exprs)

def statementWords : Language Token :=
  oneOf [.keyword .input] * (paths * (oneOf [.symbol .colon] * (axisVectors * typeNames))) +
    (oneOf [.keyword .value] * declarations + oneOf [.keyword .trait] * declarations)

def modules : Language Token := statementWords∗

end Languages

section Parts

variable {n : Nat} {K N : Language Token}

@[simp] theorem possible_segments : Possible segments :=
  possible_oneOf List.mem_cons_self (by simp)

@[simp] theorem possible_paths : Possible paths := by simp [paths]

@[simp] theorem possible_axisVectors : Possible axisVectors := by simp [axisVectors]

@[simp] theorem possible_typeNames : Possible typeNames :=
  ⟨[.ident "integer"], _, .integer, rfl, rfl⟩

@[simp] theorem possible_closing (L : Language Token) : Possible (closing L) := by simp [closing]

@[simp] theorem possible_exprs : Possible exprs :=
  ⟨[.keyword (.boolean true)], mem_exprs.2 ⟨_, [], rfl, readable_keyword _, by decide, rfl⟩⟩

theorem reads_segment (hK : Possible K) : Reads n segment (segments * K) fun _ => K :=
  (reads_expect (by decide) (by decide) (by decide) hK).bind fun l =>
    reads_pure (R := fun _ => K) (word l)

theorem reads_path (hK : Possible K) (havoid : Avoids [.symbol .dot] K) :
    Reads n (path n) (paths * K) fun _ => K := by
  rw [paths, mul_assoc]
  refine (reads_segment (by simp [hK])).bind fun s => ?_
  rw [moreSegments_eq]
  refine (reads_more hK havoid possible_segments fun m _ => reads_segment (by simp [hK])).bind
    fun ss => ?_
  exact reads_pure (R := fun _ => K) (s :: ss)

theorem reads_axes (hK : Possible K) : Reads n (axes n) (axisVectors * K) fun _ => K := by
  cases n with
  | zero => exact reads_zero _
  | succ n =>
    simp only [axisVectors, mul_assoc, add_mul]
    refine (reads_symbol .leftBracket (by simp [hK])).bind fun _ => ?_
    refine reads_offer_oneOf (List.nodup_singleton _) (by simp) (by simp)
      (avoids_symbol (by decide)) (by simp [hK]) ?_ ?_
    · intro l _
      rw [moreNames_eq]
      have hnames : Reads (n + 1) (more .comma (fun _ => name) (n + 1))
          ((oneOf [.symbol .comma] * oneOf [.ident])∗ * (oneOf [.symbol .rightBracket] * K))
          fun _ => oneOf [.symbol .rightBracket] * K :=
        reads_more (by simp [hK]) (avoids_symbol (by decide)) possible_ident
          fun m _ => reads_name (by simp [hK])
      refine (hnames.mono (Nat.le_succ n)).bind fun ns => ?_
      refine (reads_symbol .rightBracket hK).bind fun _ => ?_
      exact reads_pure (R := fun _ => K) _
    · exact (reads_symbol .rightBracket hK).bind fun _ => reads_pure (R := fun _ => K) _

theorem mem_typeNames_mul {ts : List Token} : ts ∈ typeNames * K ↔
    ∃ name t us, ts = .ident name :: us ∧ DType.ofName? name = some t ∧ us ∈ K := by
  constructor
  · rintro ⟨_, ⟨name, t, hname, rfl⟩, us, hus, rfl⟩
    exact ⟨name, t, us, rfl, hname, hus⟩
  · rintro ⟨name, t, us, rfl, hname, hus⟩
    exact ⟨[.ident name], ⟨name, t, hname, rfl⟩, us, hus, rfl⟩

theorem leftQuotient_typeNames {name : String} {t : DType} (h : DType.ofName? name = some t) :
    (typeNames * K).leftQuotient [.ident name] = K := by
  ext us
  rw [Language.mem_leftQuotient, List.singleton_append, mem_typeNames_mul]
  constructor
  · rintro ⟨_, _, _, ⟨⟩, -, hus⟩
    exact hus
  · exact fun hus => ⟨name, t, us, rfl, h, hus⟩

theorem fits_typeNames (hK : Possible K) : Expectation.ident.Fits (typeNames * K) := by
  obtain ⟨us, hus⟩ := hK
  exact ⟨⟨_, mem_typeNames_mul.2 ⟨"integer", .integer, us, rfl, rfl, hus⟩, rfl⟩,
    fun b hb => by cases hb⟩

theorem eq_ident_of_meets {ls : List Lexeme}
    (h : Expectation.ident.meets (ls.head?.map Lexeme.token) = true) :
    ∃ name p rest, ls = Lexeme.ident name p :: rest := by
  cases ls with
  | nil => cases h
  | cons l rest =>
    obtain ⟨t, p⟩ := l
    cases t with
    | ident name => exact ⟨name, p, rest, rfl⟩
    | _ => cases h

theorem dtype_of_ident {c : Cursor} {name : String} {p : Span} {ls : List Lexeme}
    (hc : c.rest = Lexeme.ident name p :: ls) :
    (∀ t, DType.ofName? name = some t → dtype c = .ok (t, ⟨ls, [], p.stop⟩)) ∧
      (DType.ofName? name = none →
        dtype c = .error ⟨some (Lexeme.ident name p), .typeName name⟩) := by
  have htaken : expect [.ident] c = .ok (Lexeme.ident name p, ⟨ls, [], p.stop⟩) :=
    expect_of_admits hc rfl
  constructor
  · intro t hname
    refine StateT.bind_eq_ok.2 ⟨_, _, htaken, ?_⟩
    rw [show word (Lexeme.ident name p) = name from rfl, hname]
    rfl
  · intro hname
    refine StateT.bind_eq_error.2 (.inr ⟨_, _, htaken, ?_⟩)
    rw [show word (Lexeme.ident name p) = name from rfl, hname]
    rfl

/-- An identifier is always taken, so one that names no type is blamed after the fact. -/
theorem reads_dtype (hK : Possible K) : Reads n dtype (typeNames * K) fun _ => K := by
  intro c future hlength hreadable hpending
  by_cases hmeets : Expectation.ident.meets (c.rest.head?.map Lexeme.token) = true
  · obtain ⟨name, p, ls, hc⟩ := eq_ident_of_meets hmeets
    obtain ⟨hok, herror⟩ := dtype_of_ident hc
    rw [hc] at hpending ⊢
    cases hname : DType.ofName? name with
    | some t =>
      have hquotient : (typeNames * K).leftQuotient [.ident name] = K :=
        leftQuotient_typeNames hname
      have hnext := hpending.take (by rw [hquotient]; exact hK) (ls.head?.map Lexeme.token)
      rw [hquotient] at hnext
      rw [hok t hname]
      exact ⟨[Lexeme.ident name p], rfl, hnext⟩
    | none =>
      rw [herror hname]
      refine ⟨[], _, rfl, rfl, hpending.possible, hpending.impossible ?_, ?_, ?_⟩
      · rintro ts hts hnext
        obtain ⟨name', t, us, rfl, hname', -⟩ := mem_typeNames_mul.1 hts
        cases hnext
        rw [hname] at hname'
        cases hname'
      · rintro es ⟨⟩
      · rintro n ⟨rfl⟩
        exact ⟨p, rfl, hname⟩
  · have hvain : ∀ x ∈ [Expectation.ident], x.meets (c.rest.head?.map Lexeme.token) = false :=
      List.forall_mem_singleton.2 (Bool.eq_false_iff.2 hmeets)
    have hbegins : Begins [.ident] (typeNames * K) := by
      intro ts hts
      obtain ⟨name, t, us, rfl, -, -⟩ := mem_typeNames_mul.1 hts
      exact ⟨.ident, List.mem_cons_self, rfl⟩
    rw [← add_zero (typeNames * K)] at hpending
    have hdeclined := hpending.decline (List.nodup_singleton _)
      (List.forall_mem_singleton.2 (by rw [add_zero]; exact fits_typeNames hK)) hvain hbegins
      avoids_zero
    rw [show dtype c = .error _ from StateT.bind_eq_error.2 (.inl (expect_of_vain hvain))]
    exact ⟨[], c.rest, rfl, hdeclined.blames⟩

end Parts

section Expressions

/-- Expressions are read where fewer than `n` tokens are to come. Neither a point nor a bracket can
follow them. -/
def ReadsExprs (n : Nat) : Prop :=
  ∀ K N, Possible K → Avoids [.symbol .dot, .symbol .leftParen] K → Avoids exprStarts N →
    Reads n (expr? n) (exprs * K + N) fun o => o.elim N fun _ => K

variable {α : Type} {n : Nat} {K : Language Token} {R : α → Language Token}

theorem ReadsExprs.required {f : SourceExpr → Reading α} (h : ReadsExprs n) (hK : Possible K)
    (havoid : Avoids [.symbol .dot, .symbol .leftParen] K) (hf : ∀ e, Reads n (f e) K R) :
    Reads n (expr? n >>= fun o => require o >>= f) (exprs * K) R := by
  rw [← add_zero (exprs * K)]
  exact (h K 0 hK havoid avoids_zero).bind fun o => (reads_require o).bind hf

theorem avoids_closing {es : List Expectation} {L : Language Token}
    (hcomma : ∀ x ∈ es, x.admits (.symbol .comma) = false)
    (hclose : ∀ x ∈ es, x.admits (.symbol .rightParen) = false) :
    Avoids es (closing L * K) := by
  rw [closing, mul_assoc, kstar_mul_eq, mul_assoc]
  exact (avoids_symbol hcomma).add (avoids_symbol hclose)

theorem reads_closing {f : List SourceExpr → Reading α} (h : ∀ m < n, ReadsExprs m)
    (hK : Possible K) (hf : ∀ es, Reads n (f es) K R) :
    Reads n (moreExprs n >>= fun es => expect [.symbol .rightParen] >>= fun _ => f es)
      (closing exprs * K) R := by
  rw [moreExprs_eq, closing, mul_assoc]
  refine (reads_more (by simp [hK]) (avoids_symbol (by decide)) possible_exprs ?_).bind fun es =>
    (reads_symbol .rightParen hK).bind fun _ => hf es
  intro m hm
  have hrest : Avoids [.symbol .dot, .symbol .leftParen]
      ((oneOf [.symbol .comma] * exprs)∗ * (oneOf [.symbol .rightParen] * K)) := by
    rw [kstar_mul_eq, mul_assoc]
    exact (avoids_symbol (by decide)).add (avoids_symbol (by decide))
  rw [← add_zero (exprs * _)]
  exact (h m hm _ 0 (by simp [hK]) hrest avoids_zero).bind fun o => reads_require o

theorem mem_exprs_mul {ts : List Token} : ts ∈ exprs * K ↔ ∃ t us, ts = t :: us ∧ t.Readable ∧
    exprStarts.any (·.admits t) = true ∧ us ∈ afterStart exprs t * K := by
  constructor
  · rintro ⟨_, hexpr, vs, hvs, rfl⟩
    obtain ⟨t, us, rfl, ht, hadmits, hus⟩ := mem_exprs.1 hexpr
    exact ⟨t, us ++ vs, rfl, ht, hadmits, Language.append_mem_mul hus hvs⟩
  · rintro ⟨t, _, rfl, ht, hadmits, us, hus, vs, hvs, rfl⟩
    exact ⟨t :: us, mem_exprs.2 ⟨t, us, rfl, ht, hadmits, hus⟩, vs, hvs, rfl⟩

theorem begins_exprs : Begins exprStarts (exprs * K) := by
  intro ts hts
  obtain ⟨t, us, rfl, -, hadmits, -⟩ := mem_exprs_mul.1 hts
  exact List.any_eq_true.1 hadmits

theorem leftQuotient_exprs {t : Token} (ht : t.Readable)
    (hadmits : exprStarts.any (·.admits t) = true) :
    (exprs * K).leftQuotient [t] = afterStart exprs t * K := by
  ext us
  rw [Language.mem_leftQuotient, List.singleton_append, mem_exprs_mul]
  constructor
  · rintro ⟨_, _, ⟨⟩, -, -, hus⟩
    exact hus
  · exact fun hus => ⟨t, us, rfl, ht, hadmits, hus⟩

theorem possible_afterStart {t : Token} (hadmits : exprStarts.any (·.admits t) = true) :
    Possible (afterStart exprs t) := by
  cases t with
  | keyword k =>
    cases k with
    | value | trait => cases hadmits
    | _ => simp [afterStart, afterKeyword]
  | symbol s =>
    cases s with
    | leftParen => simp [afterStart]
    | _ => cases hadmits
  | _ => simp [afterStart]

theorem reads_expr (n : Nat) : ReadsExprs n := by
  -- the later an expression stands, the fewer tokens are to come after its start
  induction n using Nat.strongRecOn with
  | ind n ih =>
  intro K N hK havoid hN
  cases n with
  | zero => exact reads_zero _
  | succ n =>
  have hexpr : ReadsExprs n := ih n (Nat.lt_succ_self n)
  have hless : ∀ m < n, ReadsExprs m := fun m hm => ih m (Nat.lt_succ_of_lt hm)
  refine reads_offer (by decide) (by decide) (fun b hb => by simp [exprStarts] at hb) begins_exprs
    hN ?_ ?_ (reads_pure (R := fun o => o.elim N fun _ => K) none)
  · intro t ht hadmits
    rw [leftQuotient_exprs ht hadmits]
    exact possible_mul.2 ⟨possible_afterStart hadmits, hK⟩
  · rintro ⟨t, p⟩ ht hadmits
    rw [leftQuotient_exprs ht hadmits]
    have hdone (e : SourceExpr) : Reads n (pure (some e)) K fun o => o.elim N fun _ => K :=
      reads_pure (R := fun o => o.elim N fun _ => K) (some e)
    have hplaced (make : Span → SourceExpr) :
        Reads n (spanFrom p >>= fun s => pure (some (make s))) K fun o => o.elim N fun _ => K :=
      (reads_spanFrom p).bind fun s => hdone (make s)
    cases t with
    | int v | float v | str v =>
      rw [afterStart, one_mul]
      exact hdone _
    | keyword k =>
      cases k with
      | boolean b =>
        rw [afterStart, afterKeyword, one_mul]
        exact hdone _
      | input =>
        rw [afterStart, afterKeyword, mul_assoc]
        refine (reads_symbol .dot (by simp [hK])).bind fun _ => ?_
        refine (reads_path hK ?_).bind fun path => hplaced fun s => .input s path
        exact fun ts hts => List.forall_mem_singleton.2 (havoid ts hts _ List.mem_cons_self)
      | select =>
        simp only [afterStart, afterKeyword, mul_assoc]
        refine (reads_symbol .leftParen (by simp [hK])).bind fun _ => ?_
        refine hexpr.required (by simp [hK]) (avoids_symbol (by decide)) fun c => ?_
        refine (reads_symbol .comma (by simp [hK])).bind fun _ => ?_
        refine hexpr.required (by simp [hK]) (avoids_symbol (by decide)) fun t => ?_
        refine (reads_symbol .comma (by simp [hK])).bind fun _ => ?_
        refine hexpr.required (by simp [hK]) (avoids_symbol (by decide)) fun f => ?_
        exact (reads_symbol .rightParen hK).bind fun _ => hplaced fun s => .select s c t f
      | reduce =>
        simp only [afterStart, afterKeyword, mul_assoc, add_mul]
        refine (reads_symbol .leftParen (by simp [hK])).bind fun _ => ?_
        refine (reads_name (by simp [hK])).bind fun op => ?_
        refine (reads_symbol .comma (by simp [hK])).bind fun _ => ?_
        refine hexpr.required (by simp [hK])
          ((avoids_symbol (by decide)).add (avoids_symbol (by decide))) fun arg => ?_
        refine reads_offer_symbol (by simp [hK]) (avoids_symbol (by decide)) (fun _ => ?_) ?_
        · refine (reads_axes (by simp [hK])).bind fun a => ?_
          refine (reads_symbol .rightParen hK).bind fun _ => ?_
          exact hplaced fun s => .reduce s op (some a) arg
        · exact (reads_symbol .rightParen hK).bind fun _ => hplaced fun s => .reduce s op none arg
      | value | trait => cases hadmits
    | symbol s =>
      cases s with
      | leftParen =>
        rw [afterStart, if_pos rfl, mul_assoc]
        refine hexpr.required (by simp [hK]) (avoids_closing (by decide) (by decide)) fun e => ?_
        refine reads_closing hless hK fun es => ?_
        split_ifs
        · exact hdone e
        · exact hplaced fun s => .tuple s (e :: es)
      | _ => cases hadmits
    | ident name =>
      simp only [afterStart, mul_assoc, add_mul, one_mul]
      have hnext : Avoids [.symbol .leftParen] K := by
        intro ts hts
        exact List.forall_mem_singleton.2 (havoid ts hts _ (List.mem_cons_of_mem _ (by simp)))
      refine reads_offer_symbol (by simp [hK]) hnext (fun _ => ?_) (hdone (.ref p name))
      have hargs := hexpr (closing exprs * K) (oneOf [.symbol .rightParen] * K) (by simp [hK])
        (avoids_closing (by decide) (by decide)) (avoids_symbol (by decide))
      refine hargs.bind fun o => ?_
      cases o with
      | some e => exact reads_closing hless hK fun es => hplaced fun s => .call s name (e :: es)
      | none => exact (reads_symbol .rightParen hK).bind fun _ => hplaced fun s => .call s name []

end Expressions

section Statements

variable {n : Nat} {K : Language Token} {es : List Expectation}

theorem reads_inputStatement (start : Span) (hK : Possible K) :
    Reads n (inputStatement n start)
      (paths * (oneOf [.symbol .colon] * (axisVectors * (typeNames * K)))) fun _ => K := by
  refine (reads_path (by simp [hK]) (avoids_symbol (by decide))).bind fun p => ?_
  refine (reads_symbol .colon (by simp [hK])).bind fun _ => ?_
  refine (reads_axes (by simp [hK])).bind fun a => ?_
  refine (reads_dtype hK).bind fun t => ?_
  exact (reads_spanFrom start).bind fun s => reads_pure (R := fun _ => K) _

theorem reads_declarationStatement (kind : DeclKind) (start : Span) (hK : Possible K)
    (havoid : Avoids [.symbol .dot, .symbol .leftParen] K) :
    Reads n (declarationStatement n kind start) (declarations * K) fun _ => K := by
  simp only [declarations, mul_assoc]
  refine (reads_name (by simp [hK])).bind fun name => ?_
  refine (reads_symbol .equals (by simp [hK])).bind fun _ => ?_
  refine (reads_expr n).required hK havoid fun e => ?_
  exact (reads_spanFrom start).bind fun s => reads_pure (R := fun _ => K) _

theorem reads_endOfText : Reads n endOfText 1 fun _ => 1 := by
  intro c future hlength hreadable hpending
  cases hc : c.rest with
  | nil =>
    have hrun : endOfText c = .ok ((), c) := by simp only [endOfText, hc]
    rw [hrun]
    refine ⟨[], hc.symm, ?_⟩
    exact hpending
  | cons l ls =>
    have hrun : endOfText c = .error ⟨some l, .unexpected (c.tried ++ [.endOfInput])⟩ := by
      simp only [endOfText, hc]
    have hbegins : Begins [.endOfInput] 1 := by
      rintro ts ⟨rfl⟩
      exact ⟨.endOfInput, List.mem_cons_self, rfl⟩
    rw [hc, ← add_zero 1] at hpending
    have hdeclined := hpending.decline (List.nodup_singleton .endOfInput)
      (List.forall_mem_singleton.2 ⟨⟨[], .inl rfl, rfl⟩, fun b hb => by cases hb⟩)
      (List.forall_mem_singleton.2 rfl) hbegins avoids_zero
    rw [hrun]
    exact ⟨[], l :: ls, rfl, hdeclined.blames⟩

theorem statementWords_mul : statementWords * K =
    oneOf [.keyword .input] *
        (paths * (oneOf [.symbol .colon] * (axisVectors * (typeNames * K)))) +
      (oneOf [.keyword .value] * (declarations * K) +
        oneOf [.keyword .trait] * (declarations * K)) := by
  simp only [statementWords, add_mul, mul_assoc]

theorem modules_eq : modules = statementWords * modules + 1 := by
  have hstep := kstar_mul_eq statementWords 1
  rwa [mul_one] at hstep

theorem avoids_one {es : List Expectation} (h : .endOfInput ∉ es) : Avoids es 1 := by
  rintro ts ⟨rfl⟩ x hx
  exact decide_eq_false (ne_of_mem_of_not_mem hx h)

theorem avoids_modules : Avoids [.symbol .dot, .symbol .leftParen] modules := by
  rw [modules_eq, statementWords_mul]
  exact ((avoids_keyword (by decide)).add
    ((avoids_keyword (by decide)).add (avoids_keyword (by decide)))).add (avoids_one (by decide))

theorem begins_statementWords : Begins statementStarts (statementWords * K) := by
  have hstart {k : Keyword} {L : Language Token} (hk : .keyword k ∈ statementStarts) :
      Begins statementStarts (oneOf [.keyword k] * L) := by
    intro ts hts
    obtain ⟨x, hx, hmeets⟩ := begins_oneOf ts hts
    exact ⟨x, List.mem_singleton.1 hx ▸ hk, hmeets⟩
  rw [statementWords_mul]
  exact (hstart (by decide)).add ((hstart (by decide)).add (hstart (by decide)))

theorem leftQuotient_input : (statementWords * K).leftQuotient [.keyword .input] =
    paths * (oneOf [.symbol .colon] * (axisVectors * (typeNames * K))) := by
  rw [statementWords_mul, leftQuotient_add, leftQuotient_add,
    leftQuotient_oneOf (readable_keyword _) rfl, leftQuotient_oneOf_other rfl,
    leftQuotient_oneOf_other rfl, add_zero, add_zero]

theorem leftQuotient_declaration (kind : DeclKind) :
    (statementWords * K).leftQuotient [.keyword kind.keyword] = declarations * K := by
  rw [statementWords_mul, leftQuotient_add, leftQuotient_add]
  cases kind with
  | value =>
    rw [leftQuotient_oneOf_other rfl, zero_add, leftQuotient_oneOf (readable_keyword _) rfl,
      leftQuotient_oneOf_other rfl, add_zero]
  | trait =>
    rw [leftQuotient_oneOf_other rfl, zero_add, leftQuotient_oneOf_other rfl, zero_add,
      leftQuotient_oneOf (readable_keyword _) rfl]

theorem eq_keyword_of_statementStarts {t : Token} (h : statementStarts.any (·.admits t) = true) :
    t = .keyword .input ∨ ∃ kind : DeclKind, t = .keyword kind.keyword := by
  cases t with
  | keyword k =>
    cases k with
    | input => exact .inl rfl
    | value => exact .inr ⟨.value, rfl⟩
    | trait => exact .inr ⟨.trait, rfl⟩
    | _ => cases h
  | _ => cases h

@[simp] theorem possible_modules : Possible modules := possible_kstar

@[simp] theorem possible_declarations : Possible declarations := by simp [declarations]

theorem reads_statement {l : Lexeme} (h : statementStarts.any (·.admits l.token) = true) :
    Reads n (statement n l) ((statementWords * modules).leftQuotient [l.token])
      fun _ => modules := by
  obtain ⟨t, p⟩ := l
  rcases eq_keyword_of_statementStarts h with rfl | ⟨kind, rfl⟩
  · rw [leftQuotient_input]
    exact reads_inputStatement p possible_modules
  · rw [leftQuotient_declaration]
    cases kind with
    | value => exact reads_declarationStatement .value p possible_modules avoids_modules
    | trait => exact reads_declarationStatement .trait p possible_modules avoids_modules

theorem reads_statements (n : Nat) : Reads n (statements n) modules fun _ => 1 := by
  induction n with
  | zero => exact reads_zero _
  | succ n ih =>
    rw [modules_eq]
    refine reads_offer (by decide) (by decide) (fun b hb => by simp [statementStarts] at hb)
      begins_statementWords (avoids_one (by decide)) ?_ ?_ ?_
    · intro t _ hadmits
      rcases eq_keyword_of_statementStarts hadmits with rfl | ⟨kind, rfl⟩
      · rw [leftQuotient_input]
        simp
      · rw [leftQuotient_declaration]
        simp
    · intro l _ hadmits
      refine (reads_statement hadmits).bind fun s => ih.bind fun ss => ?_
      exact reads_pure (R := fun _ => 1) (s :: ss)
    · exact reads_endOfText.bind fun _ => reads_pure (R := fun _ => 1) []

end Statements

end LoopNest.Parser
