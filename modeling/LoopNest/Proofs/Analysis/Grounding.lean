import LoopNest.Proofs.Analysis.Exactness
import LoopNest.Proofs.OrderedMaps

/-! Broadcasting neither reorders axes nor invents them: what a node varies over begins the axes of
an input that it draws on, be it through references. -/
namespace LoopNest

/-- An expression draws on an input that it reads, and on those of the declarations that it refers
to. -/
inductive Graph.Draws (g : Graph) : GraphExpr → FieldPath → Prop
  | here {e : GraphExpr} {n : Node} {path : FieldPath} :
    .input n path ∈ e.postorder → Draws g e path
  | through {e : GraphExpr} {d : Declaration Node} {path : FieldPath} :
    d ∈ g.declarations → d.name ∈ e.references → Draws g d.body path → Draws g e path

theorem Graph.Draws.mono {g : Graph} {e e' : GraphExpr} {path : FieldPath}
    (h : g.Draws e path) (hsub : e.postorder ⊆ e'.postorder) : g.Draws e' path := by
  cases h with
  | here hinput => exact .here (hsub hinput)
  | through hd hname hbody => exact .through hd (List.filterMap_subset _ hsub hname) hbody

namespace Analysis

variable {inputs : InputTable} {registry : Registry} {g : Graph}

/-- Axes of an expression that come from an input that it draws on. -/
def Grounded (inputs : InputTable) (g : Graph) (e : GraphExpr) (axes : Axes) : Prop :=
  axes = [] ∨ ∃ path entry, inputs.find? path = some entry ∧ g.Draws e path ∧ axes <+: entry.axes

namespace Grounded

theorem mono {e e' : GraphExpr} {axes : Axes} (h : Grounded inputs g e axes)
    (hsub : e.postorder ⊆ e'.postorder) : Grounded inputs g e' axes := by
  rcases h with h | ⟨path, entry, hfind, hdraws, hprefix⟩
  · exact .inl h
  · exact .inr ⟨path, entry, hfind, hdraws.mono hsub, hprefix⟩

theorem isPrefix {e : GraphExpr} {axes rest : Axes} (h : Grounded inputs g e axes)
    (hrest : rest <+: axes) : Grounded inputs g e rest := by
  rcases h with rfl | ⟨path, entry, hfind, hdraws, hprefix⟩
  · exact .inl (List.prefix_nil.1 hrest)
  · exact .inr ⟨path, entry, hfind, hdraws, hrest.trans hprefix⟩

/-- A join is one of the vectors that it joins. -/
theorem join {e : GraphExpr} {vectors : List Axes} {axes : Axes}
    (h : ∀ v ∈ vectors, Grounded inputs g e v) (hjoin : Axes.IsJoin vectors axes) :
    Grounded inputs g e axes := by
  obtain ⟨-, hmem | ⟨-, rfl⟩⟩ := Axes.lub_eq_ok_iff.1 (Axes.lub_eq_ok_iff_isJoin.2 hjoin)
  · exact h axes hmem
  · exact .inl rfl

theorem reduce {e : GraphExpr} {op : String} {hint : Option Axes} {arg s : Stamp}
    (h : Grounded inputs g e arg.axes) (hs : ReduceStamp registry op hint arg s) :
    Grounded inputs g e s.axes := by
  cases hs with
  | mk _ _ hleaves _ => exact h.isPrefix hleaves.isPrefix

theorem call {e : GraphExpr} {func : String} {args : List Stamp} {s : Stamp}
    (h : ∀ v ∈ args.map Stamp.axes, Grounded inputs g e v) (hs : CallStamp registry func args s) :
    Grounded inputs g e s.axes := by
  cases hs with
  | broadcast _ _ hjoin _ => exact join h hjoin
  | reduction hreduce => exact reduce (h _ (List.mem_singleton.2 rfl)) hreduce

theorem nodup {e : GraphExpr} {axes : Axes} (h : Grounded inputs g e axes)
    (hn : ∀ path entry, inputs.find? path = some entry → entry.axes.Nodup) : axes.Nodup := by
  rcases h with rfl | ⟨path, entry, hfind, -, hprefix⟩
  · exact List.nodup_nil
  · exact hprefix.sublist.nodup (hn path entry hfind)

end Grounded

/-- The stamps of declarations are grounded in the bodies. -/
def GroundedDecls (inputs : InputTable) (g : Graph) (decls : List (String × Stamp)) : Prop :=
  ∀ p ∈ decls, ∃ d ∈ g.declarations, d.name = p.1 ∧ Grounded inputs g d.body p.2.axes

/-- What an expression varies over is grounded, if the declarations before it are. -/
theorem grounded_of_hasStamp {env : Env} (hdecls : GroundedDecls env.inputs g env.decls)
    {e : GraphExpr} {s : Stamp} (h : HasStamp env e s) : Grounded env.inputs g e s.axes := by
  -- what an operand varies over is grounded in the whole expression
  have operands : ∀ {e : GraphExpr} {es : List GraphExpr} {stamps : List Stamp},
      (∀ x ∈ es, x.postorder ⊆ e.postorder) →
      (∀ x ∈ es, ∀ {s}, HasStamp env x s → Grounded env.inputs g x s.axes) →
      List.Forall₂ (HasStamp env) es stamps →
      ∀ v ∈ stamps.map Stamp.axes, Grounded env.inputs g e v := by
    intro e es stamps hsub ih hes v hv
    obtain ⟨s, hs, rfl⟩ := List.mem_map.1 hv
    obtain ⟨x, hx, hstamp⟩ := exists_of_forall₂ hes.flip hs
    exact (ih x hx hstamp).mono (hsub x hx)
  induction e using Expr.induction generalizing s with
  | constant n v =>
    cases h with
    | constant => exact .inl rfl
  | input n path =>
    cases h with
    | @input _ _ entry hfind =>
      exact .inr ⟨path, entry, hfind, .here (List.mem_singleton.2 rfl), List.prefix_refl _⟩
  | ref n name =>
    cases h with
    | ref hmem =>
      obtain ⟨d, hd, hname, hbody⟩ := hdecls _ hmem
      rcases hbody with hnil | ⟨path, entry, hfind, hdraws, hprefix⟩
      · exact .inl hnil
      · refine .inr ⟨path, entry, hfind, .through hd ?_ hdraws, hprefix⟩
        exact hname ▸ List.mem_singleton.2 rfl
  | call n func args ih =>
    cases h with
    | call hargs hcall =>
      refine .call (operands (fun x hx y hy => ?_) ih hargs) hcall
      exact Expr.mem_postorder_call.2 (.inl ⟨x, hx, hy⟩)
  | tuple n elems ih =>
    cases h with
    | tuple helems hjoin =>
      refine .join (operands (fun x hx y hy => ?_) ih helems) hjoin
      exact Expr.mem_postorder_tuple.2 (.inl ⟨x, hx, hy⟩)
  | select n c t f ihc iht ihf =>
    cases h with
    | select hc ht hf _ hjoin _ =>
      refine .join (List.forall_mem_cons.2 ⟨(ihc hc).mono ?_, List.forall_mem_cons.2
        ⟨(iht ht).mono ?_, List.forall_mem_singleton.2 ((ihf hf).mono ?_)⟩⟩) hjoin
      · exact fun y hy => Expr.mem_postorder_select.2 (.inl hy)
      · exact fun y hy => Expr.mem_postorder_select.2 (.inr (.inl hy))
      · exact fun y hy => Expr.mem_postorder_select.2 (.inr (.inr (.inl hy)))
  | reduce n op hint arg ih =>
    cases h with
    | reduce harg hreduce =>
      refine .reduce ((ih harg).mono fun y hy => ?_) hreduce
      exact Expr.mem_postorder_reduce.2 (.inl hy)

/-- A declaration adds a grounded stamp, and so does each one in a row. -/
theorem groundedDecls_of_succession {done stamps : List (String × Stamp)}
    {ds : List (Declaration Node)} (hs : Succession (Declares inputs registry) done ds stamps)
    (hds : ds ⊆ g.declarations) (hdone : GroundedDecls inputs g done) :
    GroundedDecls inputs g (done ++ stamps) := by
  induction hs with
  | nil => rwa [List.append_nil]
  | @cons done stamps ds d p hd _ ih =>
    obtain ⟨hmem, hrest⟩ := List.cons_subset.1 hds
    rw [List.append_cons]
    refine ih hrest (List.forall_mem_append.2 ⟨hdone, List.forall_mem_singleton.2 ?_⟩)
    exact ⟨d, hmem, hd.name_eq.symm, grounded_of_hasStamp hdone hd.body⟩

/-- What a node varies over begins the axes of an input that it draws on, or is nothing. So where
inputs do not repeat an axis, nodes do not either. -/
theorem node_axes_grounded {ds : List (Declaration Span)} {a : Analysis}
    (hg : Graph.ofDeclarations ds = .ok g) (ha : ofGraph g inputs registry = .ok a) :
    ∀ x ∈ g.nodes, ∃ facts, a.node? x.note.id = some facts ∧
      (facts.axes = [] ∨ ∃ path entry, inputs.find? path = some entry ∧ g.Draws x path ∧
        facts.axes <+: entry.axes) ∧
      ((∀ path entry, inputs.find? path = some entry → entry.axes.Nodup) → facts.axes.Nodup) := by
  intro x hx
  obtain ⟨d, hd, hx⟩ := List.mem_flatMap.1 hx
  obtain ⟨before, after, hd⟩ := List.append_of_mem hd
  obtain ⟨facts, hfacts, hstamp⟩ := exists_node? hg ha hd hx
  have hdecls : GroundedDecls inputs g a.decls :=
    groundedDecls_of_succession (succession_ofGraph hg ha) (List.Subset.refl _)
      (List.forall_mem_nil _)
  have hgrounded : Grounded inputs g x facts.axes :=
    grounded_of_hasStamp (fun p hp => hdecls p (List.mem_of_mem_take hp)) ((hstamp _).2 rfl)
  exact ⟨facts, hfacts, hgrounded, hgrounded.nodup⟩

/-- The parts vary over orders, though they read no input themselves: the amounts do, three
references away. -/
theorem keptAmounts_axes_grounded :
    ∃ g a, Graph.ofDeclarations keptAmounts = .ok g ∧
      ofGraph g orderInputs .builtins = .ok a ∧
      (∀ path entry, orderInputs.find? path = some entry → entry.axes.Nodup) ∧
      ∀ x ∈ g.nodes, ∃ facts, a.node? x.note.id = some facts ∧
        Grounded orderInputs g x facts.axes ∧ facts.axes.Nodup := by
  have hg : Graph.ofDeclarations keptAmounts = .ok ⟨Graph.numberFrom 0 keptAmounts⟩ := rfl
  obtain ⟨a, ha, -⟩ : ∃ a,
      ofGraph ⟨Graph.numberFrom 0 keptAmounts⟩ orderInputs .builtins = .ok a ∧ true = true :=
    Except.exists_of_any (by decide +kernel)
  have hn : ∀ path entry, orderInputs.find? path = some entry → entry.axes.Nodup := by
    have hentries : ∀ p ∈ orderInputs.entries, p.2.axes.Nodup := by decide +kernel
    exact fun path entry hfind => hentries (path, entry) (OrderedMap.find?_eq_some_iff.1 hfind)
  refine ⟨_, a, hg, ha, hn, fun x hx => ?_⟩
  obtain ⟨facts, hfacts, hgrounded, hnodup⟩ := node_axes_grounded hg ha x hx
  exact ⟨facts, hfacts, hgrounded, hnodup hn⟩

end Analysis
end LoopNest
