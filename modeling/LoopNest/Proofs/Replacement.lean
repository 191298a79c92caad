import LoopNest.Proofs.Stamp.Elaboration

/-! Replacing an occurrence of an expression by another one. What is around the occurrence takes up
of it its number of nodes, what is inferred for it and how it is stamped, and nothing else; so where
these are the same the whole module is analyzed and stamped as before. -/
namespace LoopNest

namespace Expr

/-- One occurrence of `x` is replaced by `y`. -/
inductive Replaces {α ω : Type} (x y : Expr α ω) : Expr α ω → Expr α ω → Prop
  | here : Replaces x y x y
  | arg {n : α} {func : String} {before after : List (Expr α ω)} {e e' : Expr α ω} :
    Replaces x y e e' →
    Replaces x y (.call n func (before ++ e :: after)) (.call n func (before ++ e' :: after))
  | elem {n : α} {before after : List (Expr α ω)} {e e' : Expr α ω} :
    Replaces x y e e' →
    Replaces x y (.tuple n (before ++ e :: after)) (.tuple n (before ++ e' :: after))
  | cond {n : α} {c c' t f : Expr α ω} :
    Replaces x y c c' → Replaces x y (.select n c t f) (.select n c' t f)
  | onTrue {n : α} {c t t' f : Expr α ω} :
    Replaces x y t t' → Replaces x y (.select n c t f) (.select n c t' f)
  | onFalse {n : α} {c t f f' : Expr α ω} :
    Replaces x y f f' → Replaces x y (.select n c t f) (.select n c t f')
  | reduced {n : α} {op : String} {hint : ω} {e e' : Expr α ω} :
    Replaces x y e e' → Replaces x y (.reduce n op hint e) (.reduce n op hint e')

/-- What is replaced is a node. -/
theorem Replaces.mem_postorder {α ω : Type} {x y e e' : Expr α ω} (h : Replaces x y e e') :
    x ∈ e.postorder := by
  induction h with
  | here => exact x.mem_postorder
  | arg _ ih => exact mem_postorder_call.2 (.inl ⟨_, by simp, ih⟩)
  | elem _ ih => exact mem_postorder_tuple.2 (.inl ⟨_, by simp, ih⟩)
  | cond _ ih => exact mem_postorder_select.2 (.inl ih)
  | onTrue _ ih => exact mem_postorder_select.2 (.inr (.inl ih))
  | onFalse _ ih => exact mem_postorder_select.2 (.inr (.inr (.inl ih)))
  | reduced _ ih => exact mem_postorder_reduce.2 (.inl ih)

section Numbers

theorem number_select {span : Span} {c t f : SourceExpr} {c' t' f' : GraphExpr}
    {next next₁ next₂ next₃ : Nat} (hc : c.number next = (c', next₁))
    (ht : t.number next₁ = (t', next₂)) (hf : f.number next₂ = (f', next₃)) :
    (select span c t f).number next = (.select ⟨⟨next₃⟩, span⟩ c' t' f', next₃ + 1) := by
  rw [number, hc]
  simp only [ht, hf]

variable {x y e e' : SourceExpr}

/-- From a number on, two expressions take up the same numbers, and the numbered ones differ by one
occurrence. -/
def ReplacesFrom (x y e e' : SourceExpr) (next : Nat) : Prop :=
  ∃ k g g' next', e.number next = (g, next') ∧ e'.number next = (g', next') ∧
    Replaces (x.number k).1 (y.number k).1 g g'

theorem ReplacesFrom.size {next : Nat} (h : ReplacesFrom x y e e' next) :
    (e'.number next).2 = (e.number next).2 := by
  obtain ⟨k, g, g', next', heq, heq', -⟩ := h
  rw [heq, heq']

theorem ReplacesFrom.numbered {next : Nat} (h : ReplacesFrom x y e e' next) :
    ∃ k, Replaces (x.number k).1 (y.number k).1 (e.number next).1 (e'.number next).1 := by
  obtain ⟨k, g, g', next', heq, heq', hk⟩ := h
  rw [heq, heq']
  exact ⟨k, hk⟩

theorem numberAll_replace (before after : List SourceExpr)
    (h : ∀ next, ReplacesFrom x y e e' next) (next : Nat) :
    ∃ k es g g' es' next', numberAll next (before ++ e :: after) = (es ++ g :: es', next') ∧
      numberAll next (before ++ e' :: after) = (es ++ g' :: es', next') ∧
      Replaces (x.number k).1 (y.number k).1 g g' := by
  induction before generalizing next with
  | nil =>
    obtain ⟨k, g, g', next', heq, heq', hk⟩ := h next
    refine ⟨k, [], g, g', (numberAll next' after).1, (numberAll next' after).2, ?_, ?_, hk⟩
    · rw [List.nil_append, numberAll, heq]
      rfl
    · rw [List.nil_append, numberAll, heq']
      rfl
  | cons b before ih =>
    obtain ⟨k, es, g, g', es', next', heq, heq', hk⟩ := ih (b.number next).2
    refine ⟨k, (b.number next).1 :: es, g, g', es', next', ?_, ?_, hk⟩
    · simp only [List.cons_append, numberAll, heq]
    · simp only [List.cons_append, numberAll, heq']

/-- Numbering keeps a replacement by an expression with as many nodes. -/
theorem Replaces.number (hsize : ∀ k, (y.number k).2 = (x.number k).2) (h : Replaces x y e e')
    (next : Nat) : ReplacesFrom x y e e' next := by
  induction h generalizing next with
  | here => exact ⟨next, _, _, _, rfl, Prod.ext rfl (hsize next), .here⟩
  | @arg n func before after e e' _ ih =>
    obtain ⟨k, es, g, g', es', next', heq, heq', hk⟩ := numberAll_replace before after ih next
    exact ⟨k, _, _, _, by rw [Expr.number, heq], by rw [Expr.number, heq'], .arg hk⟩
  | @elem n before after e e' _ ih =>
    obtain ⟨k, es, g, g', es', next', heq, heq', hk⟩ := numberAll_replace before after ih next
    exact ⟨k, _, _, _, by rw [Expr.number, heq], by rw [Expr.number, heq'], .elem hk⟩
  | cond _ ih =>
    obtain ⟨k, g, g', next', heq, heq', hk⟩ := ih next
    exact ⟨k, _, _, _, number_select heq rfl rfl, number_select heq' rfl rfl, .cond hk⟩
  | onTrue _ ih =>
    obtain ⟨k, g, g', next', heq, heq', hk⟩ := ih (Expr.number next _).2
    exact ⟨k, _, _, _, number_select rfl heq rfl, number_select rfl heq' rfl, .onTrue hk⟩
  | onFalse _ ih =>
    obtain ⟨k, g, g', next', heq, heq', hk⟩ := ih (Expr.number (Expr.number next _).2 _).2
    exact ⟨k, _, _, _, number_select rfl rfl heq, number_select rfl rfl heq', .onFalse hk⟩
  | reduced _ ih =>
    obtain ⟨k, g, g', next', heq, heq', hk⟩ := ih next
    exact ⟨k, _, _, _, by rw [Expr.number, heq], by rw [Expr.number, heq'], .reduced hk⟩

end Numbers

end Expr

namespace Graph

variable (before after : List (Declaration Span)) {d d' : Declaration Span}

/-- A graph with one body replaced has the same numbers at all other places. -/
theorem numberFrom_replace (hsize : ∀ k, (d'.body.number k).2 = (d.body.number k).2) (next : Nat) :
    ∃ k rest, numberFrom next (before ++ d :: after) =
        numberFrom next before ++ d.numbered k :: rest ∧
      numberFrom next (before ++ d' :: after) =
        numberFrom next before ++ d'.numbered k :: rest := by
  induction before generalizing next with
  | nil =>
    refine ⟨next, _, rfl, ?_⟩
    rw [List.nil_append, numberFrom_cons, hsize]
    rfl
  | cons b before ih =>
    obtain ⟨k, rest, heq, heq'⟩ := ih (b.body.number next).2
    refine ⟨k, rest, ?_, ?_⟩
    · rw [List.cons_append, numberFrom_cons, heq]
      rfl
    · rw [List.cons_append, numberFrom_cons, heq']
      rfl

theorem firstDuplicate?_replace (hname : d'.name = d.name) (hspan : d'.span = d.span)
    (seen : List String) :
    ((firstDuplicate? seen (before ++ d' :: after)).map fun x => (x.name, x.span)) =
      (firstDuplicate? seen (before ++ d :: after)).map fun x => (x.name, x.span) := by
  induction before generalizing seen with
  | nil =>
    rw [List.nil_append, List.nil_append, firstDuplicate?, firstDuplicate?, hname]
    split
    · rw [Option.map_some, Option.map_some, hname, hspan]
    · rfl
  | cons b before ih =>
    rw [List.cons_append, List.cons_append, firstDuplicate?, firstDuplicate?]
    split
    · rfl
    · exact ih (b.name :: seen)

/-- Declarations with one body replaced form a graph or fail with the same fault. -/
theorem ofDeclarations_replace (hname : d'.name = d.name) (hspan : d'.span = d.span) :
    (∃ fault, ofDeclarations (before ++ d :: after) = .error fault ∧
        ofDeclarations (before ++ d' :: after) = .error fault) ∨
      ofDeclarations (before ++ d :: after) = .ok ⟨numberFrom 0 (before ++ d :: after)⟩ ∧
        ofDeclarations (before ++ d' :: after) = .ok ⟨numberFrom 0 (before ++ d' :: after)⟩ := by
  have hdup := firstDuplicate?_replace before after hname hspan []
  rw [ofDeclarations, ofDeclarations]
  cases h : firstDuplicate? [] (before ++ d :: after) with
  | none =>
    rw [h, Option.map_none, Option.map_eq_none_iff] at hdup
    rw [hdup]
    exact .inr ⟨rfl, rfl⟩
  | some x =>
    rw [h, Option.map_some, Option.map_eq_some_iff] at hdup
    obtain ⟨x', hx', hsame⟩ := hdup
    obtain ⟨hname, hspan⟩ := Prod.mk.inj hsame
    rw [hx']
    exact .inl ⟨_, rfl, congrArg₂
      (fun name span => Except.error ((Fault.duplicateDeclaration name).diagnose span)) hname hspan⟩

end Graph

namespace Analysis

variable {env : Env} {x y e e' : GraphExpr}

theorem inferAll_replace (before after : List GraphExpr) (h : infer env e' = infer env e) :
    inferAll env (before ++ e' :: after) = inferAll env (before ++ e :: after) := by
  induction before with
  | nil => rw [List.nil_append, List.nil_append, inferAll, inferAll, h]
  | cons b before ih =>
    rw [List.cons_append, List.cons_append, inferAll, inferAll, ih]

/-- What is inferred for an expression, or its fault, depends on an occurrence by what is inferred
for that. -/
theorem infer_replace (hxy : infer env y = infer env x) (h : Expr.Replaces x y e e') :
    infer env e' = infer env e := by
  induction h with
  | here => exact hxy
  | arg _ ih => rw [infer, infer, inferAll_replace _ _ ih]
  | elem _ ih => rw [infer, infer, inferAll_replace _ _ ih]
  | cond _ ih | onTrue _ ih | onFalse _ ih | reduced _ ih => rw [infer, infer, ih]

/-- Declarations with one of them replaced are analyzed alike. -/
theorem extend_replace {inputs : InputTable} {registry : Registry} {a : Analysis}
    {before after : List (Declaration Node)} {d d' : Declaration Node} (hname : d'.name = d.name)
    (h : ∀ known, extend inputs registry a before = .ok known →
      infer ⟨inputs, registry, known.decls⟩ d'.body =
        infer ⟨inputs, registry, known.decls⟩ d.body) :
    extend inputs registry a (before ++ d' :: after) =
      extend inputs registry a (before ++ d :: after) := by
  induction before generalizing a with
  | nil => rw [List.nil_append, List.nil_append, extend, extend, h a rfl, hname]
  | cons b before ih =>
    rw [List.cons_append, List.cons_append, extend, extend]
    cases hb : infer ⟨inputs, registry, a.decls⟩ b.body with
    | error fault => rfl
    | ok r => exact ih fun known hknown => h known (by rw [extend, hb]; exact hknown)

end Analysis

namespace Stamping

variable {a : Analysis} {registry : Registry} {x y e e' : GraphExpr}

theorem stampAll_replace (before after : List GraphExpr)
    (h : stampExpr a registry e' = stampExpr a registry e) :
    stampAll a registry (before ++ e' :: after) = stampAll a registry (before ++ e :: after) := by
  induction before with
  | nil => rw [List.nil_append, List.nil_append, stampAll, stampAll, h]
  | cons b before ih =>
    rw [List.cons_append, List.cons_append, stampAll, stampAll, ih]

theorem stampExpr_replace (hxy : stampExpr a registry y = stampExpr a registry x)
    (h : Expr.Replaces x y e e') : stampExpr a registry e' = stampExpr a registry e := by
  induction h with
  | here => exact hxy
  | arg _ ih => rw [stampExpr, stampExpr, stampAll_replace _ _ ih]
  | elem _ ih => rw [stampExpr, stampExpr, stampAll_replace _ _ ih]
  | cond _ ih | onTrue _ ih | onFalse _ ih | reduced _ ih => rw [stampExpr, stampExpr, ih]

/-- Declarations with one of them replaced are stamped alike. -/
theorem stampDecls_replace {before after : List (Declaration Node)} {d d' : Declaration Node}
    (h : ∀ topo, stampDecl a registry topo d' = stampDecl a registry topo d)
    (hname : d'.name = d.name) (topo : Nat) (c : ModuleCounter) :
    stampDecls a registry topo c (before ++ d' :: after) =
      stampDecls a registry topo c (before ++ d :: after) := by
  induction before generalizing topo c with
  | nil => rw [List.nil_append, List.nil_append, stampDecls, stampDecls, h, hname]
  | cons b before ih =>
    rw [List.cons_append, List.cons_append, stampDecls, stampDecls]
    simp only [ih]

end Stamping
end LoopNest
