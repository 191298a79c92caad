import LoopNest.Analysis
import LoopNest.Proofs.Expressions
import LoopNest.Proofs.Fallible

/-! The entries of the analysis. Nodes are numbered through in the order of evaluation, and what is
inferred for an expression has an entry for each of its nodes in that order: under its number, what
is inferred for the node by itself. So the analysis of a graph has one entry for each node. -/
namespace LoopNest

namespace Expr

/-- Numbers that follow one another. -/
def numbers (next count : Nat) : List NodeId := (List.range' next count).map NodeId.mk

theorem numbers_append (next m n : Nat) :
    numbers next m ++ numbers (next + m) n = numbers next (m + n) := by
  rw [numbers, numbers, numbers, ← List.map_append, List.range'_append_1]

theorem nodup_numbers (next count : Nat) : (numbers next count).Nodup := by
  refine List.Nodup.map ?_ List.nodup_range'
  intro m n h
  cases h
  rfl

/-- The numbers of the nodes, each after those of its subexpressions. -/
def ids {ω : Type} (e : Expr Node ω) : List NodeId := e.notes.map Node.id

theorem ids_call {ω : Type} (n : Node) (func : String) (args : List (Expr Node ω)) :
    (call n func args).ids = args.flatMap ids ++ [n.id] := by
  rw [ids, notes_call, List.map_append, List.map_flatMap]
  rfl

theorem ids_tuple {ω : Type} (n : Node) (elems : List (Expr Node ω)) :
    (tuple n elems).ids = elems.flatMap ids ++ [n.id] := by
  rw [ids, notes_tuple, List.map_append, List.map_flatMap]
  rfl

theorem ids_select {ω : Type} (n : Node) (c t f : Expr Node ω) :
    (select n c t f).ids = c.ids ++ (t.ids ++ (f.ids ++ [n.id])) := by
  rw [ids, notes_select, List.map_append, List.map_append, List.map_append]
  rfl

theorem ids_reduce {ω : Type} (n : Node) (op : String) (reduced : ω) (arg : Expr Node ω) :
    (reduce n op reduced arg).ids = arg.ids ++ [n.id] := by
  rw [ids, notes_reduce, List.map_append]
  rfl

/-- The nodes have the next numbers, in the order of evaluation. -/
structure Numbered (next count : Nat) (ids : List NodeId) (next' : Nat) : Prop where
  ids_eq : ids = numbers next count
  next_eq : next' = next + count

namespace Numbered

variable {next count count' next' next'' : Nat} {ids ids' : List NodeId}

theorem append (h : Numbered next count ids next') (h' : Numbered next' count' ids' next'') :
    Numbered next (count + count') (ids ++ ids') next'' := by
  refine ⟨?_, by rw [h'.next_eq, h.next_eq, Nat.add_assoc]⟩
  rw [h.ids_eq, h'.ids_eq, h.next_eq, numbers_append]

theorem single (next : Nat) : Numbered next 1 [⟨next⟩] (next + 1) := ⟨rfl, rfl⟩

end Numbered

theorem numbered_numberAll {es : List SourceExpr}
    (h : ∀ e ∈ es, ∀ next, Numbered next e.notes.length (e.number next).1.ids (e.number next).2)
    (next : Nat) : Numbered next (es.flatMap notes).length ((numberAll next es).1.flatMap ids)
      (numberAll next es).2 := by
  induction es generalizing next with
  | nil => exact ⟨rfl, rfl⟩
  | cons e es ih =>
    obtain ⟨he, hes⟩ := List.forall_mem_cons.1 h
    rw [List.flatMap_cons, List.length_append]
    exact (he next).append (ih hes _)

/-- Each node gets the next number after its subexpressions. -/
theorem numbered_number (e : SourceExpr) (next : Nat) :
    Numbered next e.notes.length (e.number next).1.ids (e.number next).2 := by
  induction e using Expr.induction generalizing next with
  | constant | input | ref => exact .single next
  | call span func args ih =>
    rw [notes_call, List.length_append, number, ids_call]
    exact (numbered_numberAll ih next).append (.single _)
  | tuple span elems ih =>
    rw [notes_tuple, List.length_append, number, ids_tuple]
    exact (numbered_numberAll ih next).append (.single _)
  | select span c t f ihc iht ihf =>
    rw [notes_select, List.length_append, List.length_append, List.length_append, number,
      ids_select]
    exact (ihc next).append ((iht _).append ((ihf _).append (.single _)))
  | reduce span op reduced arg ih =>
    rw [notes_reduce, List.length_append, number, ids_reduce]
    exact (ih next).append (.single _)

end Expr

/-- The bodies of declarations have the next numbers, one after the other. -/
theorem Graph.ids_numberFrom (next : Nat) (ds : List (Declaration Span)) :
    ∃ count, (numberFrom next ds).flatMap (fun d => d.body.ids) = Expr.numbers next count := by
  induction ds generalizing next with
  | nil => exact ⟨0, rfl⟩
  | cons d ds ih =>
    obtain ⟨hids, hnext⟩ := Expr.numbered_number d.body next
    obtain ⟨count, hrest⟩ := ih (d.body.number next).2
    refine ⟨d.body.notes.length + count, ?_⟩
    rw [numberFrom, List.flatMap_cons, hids, hrest, hnext, Expr.numbers_append]

namespace Analysis

variable {env : Env}

theorem inferAll_eq_ok_iff {es : List GraphExpr} {infos : List NodeFacts}
    {nodes : List (NodeId × NodeFacts)} :
    inferAll env es = .ok (infos, nodes) ↔
      ∃ rs, List.Forall₂ (fun e r => infer env e = .ok r) es rs ∧
        rs.map Inference.info = infos ∧ rs.flatMap Inference.nodes = nodes := by
  induction es generalizing infos nodes with
  | nil =>
    constructor
    · intro h
      cases h
      exact ⟨[], .nil, rfl, rfl⟩
    · rintro ⟨rs, h, rfl, rfl⟩
      cases h
      rfl
  | cons e es ih =>
    rw [inferAll, Except.bind_eq_ok]
    constructor
    · rintro ⟨r, hr, h⟩
      obtain ⟨⟨infos', nodes'⟩, hrest, h⟩ := Except.bind_eq_ok.1 h
      cases h
      obtain ⟨rs, hrs, rfl, rfl⟩ := ih.1 hrest
      exact ⟨r :: rs, .cons hr hrs, rfl, rfl⟩
    · rintro ⟨rs, h, rfl, rfl⟩
      cases h with
      | cons hr hrs =>
        exact ⟨_, hr, Except.bind_eq_ok.2 ⟨_, ih.2 ⟨_, hrs, rfl, rfl⟩, rfl⟩⟩

/-- A rule that works on the facts of the operands. -/
theorem infer_operands_eq_ok {n : Node} {es : List GraphExpr} {r : Inference}
    (rule : List NodeFacts → Except Diagnostic NodeFacts) :
    (do let p ← inferAll env es
        return .node n p.2 (← rule p.1) : Except Diagnostic Inference) = .ok r ↔
      ∃ rs i, List.Forall₂ (fun e r => infer env e = .ok r) es rs ∧
        rule (rs.map Inference.info) = .ok i ∧ .node n (rs.flatMap Inference.nodes) i = r := by
  rw [Except.bind_eq_ok]
  constructor
  · rintro ⟨⟨infos, nodes⟩, hall, h⟩
    obtain ⟨i, hi, h⟩ := Except.bind_eq_ok.1 h
    cases h
    obtain ⟨rs, hrs, rfl, rfl⟩ := inferAll_eq_ok_iff.1 hall
    exact ⟨rs, i, hrs, hi, rfl⟩
  · rintro ⟨rs, i, hrs, hi, rfl⟩
    exact ⟨_, inferAll_eq_ok_iff.2 ⟨rs, hrs, rfl, rfl⟩, Except.bind_eq_ok.2 ⟨i, hi, rfl⟩⟩

theorem infer_call_eq_ok {n : Node} {func : String} {args : List GraphExpr} {r : Inference} :
    infer env (.call n func args) = .ok r ↔
      ∃ rs i, List.Forall₂ (fun e r => infer env e = .ok r) args rs ∧
        callRule env func (rs.map Inference.info) n.span = .ok i ∧
        .node n (rs.flatMap Inference.nodes) i = r := by
  rw [infer]
  exact infer_operands_eq_ok fun infos => callRule env func infos n.span

theorem infer_tuple_eq_ok {n : Node} {elems : List GraphExpr} {r : Inference} :
    infer env (.tuple n elems) = .ok r ↔
      ∃ rs i, List.Forall₂ (fun e r => infer env e = .ok r) elems rs ∧
        tupleRule (rs.map Inference.info) n.span = .ok i ∧
        .node n (rs.flatMap Inference.nodes) i = r := by
  rw [infer]
  exact infer_operands_eq_ok fun infos => tupleRule infos n.span

theorem infer_select_eq_ok {n : Node} {c t f : GraphExpr} {r : Inference} :
    infer env (.select n c t f) = .ok r ↔
      ∃ rc rt rf i, infer env c = .ok rc ∧ infer env t = .ok rt ∧ infer env f = .ok rf ∧
        selectRule rc.info rt.info rf.info n.span = .ok i ∧
        .node n (rc.nodes ++ (rt.nodes ++ rf.nodes)) i = r := by
  rw [infer, Except.bind_eq_ok]
  constructor
  · rintro ⟨rc, hc, h⟩
    obtain ⟨rt, ht, h⟩ := Except.bind_eq_ok.1 h
    obtain ⟨rf, hf, h⟩ := Except.bind_eq_ok.1 h
    obtain ⟨i, hi, h⟩ := Except.bind_eq_ok.1 h
    cases h
    exact ⟨rc, rt, rf, i, hc, ht, hf, hi, rfl⟩
  · rintro ⟨rc, rt, rf, i, hc, ht, hf, hi, rfl⟩
    exact ⟨rc, hc, Except.bind_eq_ok.2 ⟨rt, ht, Except.bind_eq_ok.2 ⟨rf, hf,
      Except.bind_eq_ok.2 ⟨i, hi, rfl⟩⟩⟩⟩

theorem infer_reduce_eq_ok {n : Node} {op : String} {hint : Option Axes} {arg : GraphExpr}
    {r : Inference} :
    infer env (.reduce n op hint arg) = .ok r ↔
      ∃ ra i, infer env arg = .ok ra ∧ explicitReduceRule env op hint ra.info n.span = .ok i ∧
        .node n ra.nodes i = r := by
  rw [infer, Except.bind_eq_ok]
  constructor
  · rintro ⟨ra, ha, h⟩
    obtain ⟨i, hi, h⟩ := Except.bind_eq_ok.1 h
    cases h
    exact ⟨ra, i, ha, hi, rfl⟩
  · rintro ⟨ra, i, ha, hi, rfl⟩
    exact ⟨ra, ha, Except.bind_eq_ok.2 ⟨i, hi, rfl⟩⟩

theorem infer_leaf_eq_ok {n : Node} {rule : Except Diagnostic NodeFacts} {r : Inference} :
    (do return .node n [] (← rule) : Except Diagnostic Inference) = .ok r ↔
      ∃ i, rule = .ok i ∧ .node n [] i = r := by
  rw [Except.bind_eq_ok]
  constructor
  · rintro ⟨i, hi, h⟩
    cases h
    exact ⟨i, hi, rfl⟩
  · rintro ⟨i, hi, rfl⟩
    exact ⟨i, hi, rfl⟩

/-- The entry of a node: its number, with what is inferred for it. -/
def Entry (env : Env) (x : GraphExpr) (p : NodeId × NodeFacts) : Prop :=
  x.note.id = p.1 ∧ ∃ below, infer env x = .ok ⟨p.2, below⟩

/-- What is inferred for an expression has the entries of its nodes. -/
theorem entries_of_infer {e : GraphExpr} {r : Inference} (h : infer env e = .ok r) :
    List.Forall₂ (Entry env) e.postorder r.nodes := by
  -- the entry of the expression itself comes last
  have last : ∀ {e : GraphExpr} {below : List (NodeId × NodeFacts)} {i : NodeFacts},
      infer env e = .ok (.node e.note below i) →
      List.Forall₂ (Entry env) [e] [(e.note.id, i)] :=
    fun he => .cons ⟨rfl, _, he⟩ .nil
  induction e using Expr.induction generalizing r with
  | constant n v =>
    cases h
    exact last rfl
  | input n path =>
    obtain ⟨i, -, rfl⟩ := infer_leaf_eq_ok.1 h
    exact last h
  | ref n name =>
    obtain ⟨i, -, rfl⟩ := infer_leaf_eq_ok.1 h
    exact last h
  | call n func args ih =>
    obtain ⟨rs, i, hrs, -, rfl⟩ := infer_call_eq_ok.1 h
    rw [Expr.postorder_call]
    exact List.rel_append (forall₂_flatMap hrs fun a ha r => ih a ha) (last h)
  | tuple n elems ih =>
    obtain ⟨rs, i, hrs, -, rfl⟩ := infer_tuple_eq_ok.1 h
    rw [Expr.postorder_tuple]
    exact List.rel_append (forall₂_flatMap hrs fun a ha r => ih a ha) (last h)
  | select n c t f ihc iht ihf =>
    obtain ⟨rc, rt, rf, i, hc, ht, hf, -, rfl⟩ := infer_select_eq_ok.1 h
    rw [Expr.postorder_select, Inference.node, List.append_assoc, List.append_assoc]
    exact List.rel_append (ihc hc)
      (List.rel_append (iht ht) (List.rel_append (ihf hf) (last h)))
  | reduce n op hint arg ih =>
    obtain ⟨ra, i, ha, -, rfl⟩ := infer_reduce_eq_ok.1 h
    rw [Expr.postorder_reduce]
    exact List.rel_append (ih ha) (last h)

/-- The expression itself has an entry. -/
theorem mem_nodes_of_infer {e : GraphExpr} {r : Inference} (h : infer env e = .ok r) :
    (e.note.id, r.info) ∈ r.nodes := by
  obtain ⟨⟨id, facts⟩, hp, rfl, below, hr⟩ :=
    exists_of_forall₂ (entries_of_infer h) e.mem_postorder
  cases h.symm.trans hr
  exact hp

theorem map_fst_of_infer {e : GraphExpr} {r : Inference} (h : infer env e = .ok r) :
    r.nodes.map Prod.fst = e.ids := by
  rw [Expr.ids, Expr.notes, List.map_map]
  exact (map_eq_of_forall₂ (entries_of_infer h) fun _ _ hp => hp.1).symm

section Extend

variable {inputs : InputTable} {registry : Registry} {a a' : Analysis}
  {ds ds' : List (Declaration Node)}

theorem extend_cons_eq_ok {d : Declaration Node} :
    extend inputs registry a (d :: ds) = .ok a' ↔
      ∃ r, infer ⟨inputs, registry, a.decls⟩ d.body = .ok r ∧
        extend inputs registry ⟨a.nodes ++ r.nodes, a.decls ++ [(d.name, r.info.stamp)]⟩ ds =
          .ok a' := by
  rw [extend]
  constructor
  · intro h
    split at h
    · cases h
    · exact ⟨_, ‹_›, h⟩
  · rintro ⟨r, hr, h⟩
    rw [hr]
    exact h

theorem extend_append (h : extend inputs registry a (ds ++ ds') = .ok a') :
    ∃ a₁, extend inputs registry a ds = .ok a₁ ∧ extend inputs registry a₁ ds' = .ok a' := by
  induction ds generalizing a with
  | nil => exact ⟨a, rfl, h⟩
  | cons d ds ih =>
    obtain ⟨r, hr, h⟩ := extend_cons_eq_ok.1 h
    obtain ⟨a₁, hfirst, hrest⟩ := ih h
    exact ⟨a₁, extend_cons_eq_ok.2 ⟨r, hr, hfirst⟩, hrest⟩

theorem nodes_subset_of_extend (h : extend inputs registry a ds = .ok a') :
    a.nodes ⊆ a'.nodes := by
  induction ds generalizing a with
  | nil =>
    cases h
    exact List.Subset.refl _
  | cons d ds ih =>
    obtain ⟨r, -, h⟩ := extend_cons_eq_ok.1 h
    exact fun p hp => ih h (List.mem_append_left _ hp)

/-- Declarations add the entries of their nodes. -/
theorem map_fst_of_extend (h : extend inputs registry a ds = .ok a') :
    a'.nodes.map Prod.fst = a.nodes.map Prod.fst ++ ds.flatMap fun d => d.body.ids := by
  induction ds generalizing a with
  | nil =>
    cases h
    exact (List.append_nil _).symm
  | cons d ds ih =>
    obtain ⟨r, hr, h⟩ := extend_cons_eq_ok.1 h
    rw [ih h, List.map_append, map_fst_of_infer hr, List.append_assoc, List.flatMap_cons]

end Extend

section Graph

variable {ds : List (Declaration Span)} {g : Graph} {inputs : InputTable} {registry : Registry}
  {a : Analysis} (hg : Graph.ofDeclarations ds = .ok g) (h : ofGraph g inputs registry = .ok a)
include hg h

/-- The entries of a graph are numbered through. -/
theorem map_fst_ofGraph : ∃ count, a.nodes.map Prod.fst = Expr.numbers 0 count := by
  rw [Graph.ofDeclarations] at hg
  split at hg
  · cases hg
  · cases hg
    obtain ⟨count, hids⟩ := Graph.ids_numberFrom 0 ds
    exact ⟨count, (map_fst_of_extend h).trans hids⟩

/-- The analysis of a graph has one entry for each node. -/
theorem node?_of_mem {p : NodeId × NodeFacts} (hp : p ∈ a.nodes) : a.node? p.1 = some p.2 := by
  obtain ⟨count, hids⟩ := map_fst_ofGraph hg h
  exact lookup_eq_some_of_nodup (hids ▸ Expr.nodup_numbers 0 count) hp

end Graph

end Analysis
end LoopNest
