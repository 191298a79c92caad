import LoopNest.Proofs.Expressions
import LoopNest.Proofs.Fallible
import LoopNest.Stamp.Stamping

/-! What the stamper keeps of a tree. A stamped expression mirrors the expression that it comes
from, node by node, and its values and their places are counted through in the order of
evaluation. -/
namespace LoopNest

namespace StampedExpr

/-- A stamped expression has the shape of an expression, and its marks belong to the nodes there.
Only a call of a reducer has become a reduction. -/
inductive Mirrors (registry : Registry) (R : Node → Mark → Prop) : GraphExpr → StampedExpr → Prop
  | constant {n : Node} {m : Mark} {v : Literal} : R n m →
    Mirrors registry R (.constant n v) (.constant m v)
  | input {n : Node} {m : Mark} {path : FieldPath} : R n m →
    Mirrors registry R (.input n path) (.input m path)
  | ref {n : Node} {m : Mark} {name : String} : R n m →
    Mirrors registry R (.ref n name) (.ref m name)
  | call {n : Node} {m : Mark} {func : String} {f : Signature} {args : List GraphExpr}
    {sargs : List StampedExpr} : R n m → registry.find? func = some f → f.kind ≠ .reduce →
    List.Forall₂ (Mirrors registry R) args sargs →
    Mirrors registry R (.call n func args) (.call m func sargs)
  | reducer {n : Node} {m : Mark} {func : String} {f : Signature} {reduced : Axes}
    {arg : GraphExpr} {sarg : StampedExpr} : R n m → registry.find? func = some f →
    f.kind = .reduce → Mirrors registry R arg sarg →
    Mirrors registry R (.call n func [arg]) (.reduce m func reduced sarg)
  | tuple {n : Node} {m : Mark} {elems : List GraphExpr} {selems : List StampedExpr} : R n m →
    List.Forall₂ (Mirrors registry R) elems selems →
    Mirrors registry R (.tuple n elems) (.tuple m selems)
  | select {n : Node} {m : Mark} {c t f : GraphExpr} {sc st sf : StampedExpr} : R n m →
    Mirrors registry R c sc → Mirrors registry R t st → Mirrors registry R f sf →
    Mirrors registry R (.select n c t f) (.select m sc st sf)
  | reduce {n : Node} {m : Mark} {op : String} {hint : Option Axes} {reduced : Axes}
    {arg : GraphExpr} {sarg : StampedExpr} : R n m → Mirrors registry R arg sarg →
    Mirrors registry R (.reduce n op hint arg) (.reduce m op reduced sarg)

namespace Mirrors

variable {registry : Registry} {R : Node → Mark → Prop} {e : GraphExpr} {s : StampedExpr}

theorem note (h : Mirrors registry R e s) : R e.note s.note := by
  cases h <;> assumption

/-- The nodes mirror one another in the order of evaluation. -/
theorem postorder (h : Mirrors registry R e s) :
    List.Forall₂ (Mirrors registry R) e.postorder s.postorder := by
  have last : ∀ {e : GraphExpr} {s : StampedExpr}, Mirrors registry R e s →
      List.Forall₂ (Mirrors registry R) [e] [s] := fun h => .cons h .nil
  induction e using Expr.induction generalizing s with
  | constant n v =>
    cases h with
    | constant hm => exact last (.constant hm)
  | input n path =>
    cases h with
    | input hm => exact last (.input hm)
  | ref n name =>
    cases h with
    | ref hm => exact last (.ref hm)
  | call n func args ih =>
    rw [Expr.postorder_call]
    cases h with
    | call hm hfind hkind hargs =>
      rw [Expr.postorder_call]
      exact List.rel_append (forall₂_flatMap hargs fun a ha s => ih a ha)
        (last (.call hm hfind hkind hargs))
    | reducer hm hfind hkind harg =>
      rw [Expr.postorder_reduce, List.flatMap_singleton]
      exact List.rel_append (ih _ (List.mem_singleton.2 rfl) harg)
        (last (.reducer hm hfind hkind harg))
  | tuple n elems ih =>
    cases h with
    | tuple hm helems =>
      rw [Expr.postorder_tuple, Expr.postorder_tuple]
      exact List.rel_append (forall₂_flatMap helems fun a ha s => ih a ha)
        (last (.tuple hm helems))
  | select n c t f ihc iht ihf =>
    cases h with
    | select hm hc ht hf =>
      rw [Expr.postorder_select, Expr.postorder_select]
      exact List.rel_append (ihc hc) (List.rel_append (iht ht) (List.rel_append (ihf hf)
        (last (.select hm hc ht hf))))
  | reduce n op hint arg ih =>
    cases h with
    | reduce hm harg =>
      rw [Expr.postorder_reduce, Expr.postorder_reduce]
      exact List.rel_append (ih harg) (last (.reduce hm harg))

theorem value?_eq (h : Mirrors registry R e s) : e.value? = s.value? := by
  cases h <;> rfl

/-- The constants are the same, since they are read off the nodes one by one. -/
theorem constants_eq (h : Mirrors registry R e s) : e.constants = s.constants := by
  have hvalues := map_eq_of_forall₂ h.postorder fun _ _ hx => hx.value?_eq
  have hkept := congrArg (List.filterMap id) hvalues
  rwa [List.filterMap_map, List.filterMap_map] at hkept

end Mirrors
end StampedExpr

namespace Stamping

/-- Marks that were made one after the other, from a counter to another one. -/
structure Marked (c : ModuleCounter) (marks : List Mark) (c' : ModuleCounter) : Prop where
  values : marks.map Mark.value = (List.range' c.value marks.length).map ValueId.mk
  topos : marks.map Mark.topo = List.range' c.topo marks.length
  next : c' = ⟨c.node, c.value + marks.length, c.topo + marks.length⟩

namespace Marked

variable {c c' c'' : ModuleCounter} {marks marks' : List Mark}

theorem nil (c : ModuleCounter) : Marked c [] c := ⟨rfl, rfl, rfl⟩

theorem append (h : Marked c marks c') (h' : Marked c' marks' c'') :
    Marked c (marks ++ marks') c'' := by
  obtain ⟨hvalues, htopos, rfl⟩ := h
  obtain ⟨hvalues', htopos', rfl⟩ := h'
  refine ⟨?_, ?_, ?_⟩
  · rw [List.map_append, hvalues, hvalues', List.length_append, ← List.range'_append_1,
      List.map_append]
  · rw [List.map_append, htopos, htopos', List.length_append, ← List.range'_append_1]
  · rw [List.length_append, ← Nat.add_assoc, ← Nat.add_assoc]

end Marked

/-- A node is built with the next mark. -/
theorem mark_ends {n : Node} {stamp : Stamp} {plan : Option Plan} {build : Mark → StampedExpr}
    {c : ModuleCounter} {fault : Diagnostic → Prop} :
    Except.Ends (fun p => ∃ m : Mark, p.1 = build m ∧ m.node = n.id ∧ m.span = n.span ∧
      m.stamp = stamp ∧ Marked c [m] p.2) fault
      ((do return build (← mark n stamp plan) : Marking StampedExpr) c) :=
  ⟨_, rfl, rfl, rfl, rfl, rfl, rfl, rfl⟩

end Stamping
end LoopNest
