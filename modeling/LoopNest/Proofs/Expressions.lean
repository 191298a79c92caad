import LoopNest.Stamp.Basic
import Mathlib.Data.List.Basic

/-! Expressions by their nodes, and expressions with other notes on the same nodes. -/
namespace LoopNest

/-- Induction over expressions, with the arguments of a call as a list. -/
@[elab_as_elim] theorem Expr.induction {α ω : Type} {motive : Expr α ω → Prop}
    (constant : ∀ n v, motive (.constant n v)) (input : ∀ n p, motive (.input n p))
    (ref : ∀ n m, motive (.ref n m))
    (call : ∀ n f args, (∀ a ∈ args, motive a) → motive (.call n f args))
    (tuple : ∀ n elems, (∀ a ∈ elems, motive a) → motive (.tuple n elems))
    (select : ∀ n c t f, motive c → motive t → motive f → motive (.select n c t f))
    (reduce : ∀ n op reduced arg, motive arg → motive (.reduce n op reduced arg))
    (e : Expr α ω) : motive e := by
  refine Expr.rec (motive_1 := motive) (motive_2 := fun l => ∀ a ∈ l, motive a) constant input ref
    call tuple select reduce ?_ ?_ e
  · intro a h
    cases h
  · intro head tail hhead htail a h
    rcases List.mem_cons.1 h with rfl | h
    · exact hhead
    · exact htail a h

namespace Expr

variable {α β ω : Type}

theorem postorderAll_eq (es : List (Expr α ω)) : postorderAll es = es.flatMap postorder := by
  induction es with
  | nil => rfl
  | cons e es ih =>
    rw [List.flatMap_cons, ← ih]
    rfl

theorem postorder_call (n : α) (func : String) (args : List (Expr α ω)) :
    (call n func args).postorder = args.flatMap postorder ++ [.call n func args] :=
  congrArg (· ++ _) (postorderAll_eq args)

theorem postorder_tuple (n : α) (elems : List (Expr α ω)) :
    (tuple n elems).postorder = elems.flatMap postorder ++ [.tuple n elems] :=
  congrArg (· ++ _) (postorderAll_eq elems)

theorem postorder_select (n : α) (c t f : Expr α ω) : (select n c t f).postorder =
    c.postorder ++ (t.postorder ++ (f.postorder ++ [.select n c t f])) := rfl

theorem postorder_reduce (n : α) (op : String) (reduced : ω) (arg : Expr α ω) :
    (reduce n op reduced arg).postorder = arg.postorder ++ [.reduce n op reduced arg] := rfl

theorem mem_postorder_call {x : Expr α ω} {n : α} {func : String} {args : List (Expr α ω)} :
    x ∈ (call n func args).postorder ↔ (∃ a ∈ args, x ∈ a.postorder) ∨ x = call n func args := by
  simp [postorder_call]

theorem mem_postorder_tuple {x : Expr α ω} {n : α} {elems : List (Expr α ω)} :
    x ∈ (tuple n elems).postorder ↔ (∃ a ∈ elems, x ∈ a.postorder) ∨ x = tuple n elems := by
  simp [postorder_tuple]

theorem mem_postorder_select {x : Expr α ω} {n : α} {c t f : Expr α ω} :
    x ∈ (select n c t f).postorder ↔
      x ∈ c.postorder ∨ x ∈ t.postorder ∨ x ∈ f.postorder ∨ x = select n c t f := by
  simp [postorder_select]

theorem mem_postorder_reduce {x : Expr α ω} {n : α} {op : String} {reduced : ω} {arg : Expr α ω} :
    x ∈ (reduce n op reduced arg).postorder ↔ x ∈ arg.postorder ∨ x = reduce n op reduced arg := by
  simp [postorder_reduce]

theorem mem_postorder (e : Expr α ω) : e ∈ e.postorder := by
  cases e with
  | constant | input | ref => exact List.mem_singleton.2 rfl
  | call => exact mem_postorder_call.2 (.inr rfl)
  | tuple => exact mem_postorder_tuple.2 (.inr rfl)
  | select => exact mem_postorder_select.2 (.inr (.inr (.inr rfl)))
  | reduce => exact mem_postorder_reduce.2 (.inr rfl)

/-- The nodes of a subexpression are nodes of the expression. -/
theorem postorder_subset {x : Expr α ω} (e : Expr α ω) (h : x ∈ e.postorder) :
    x.postorder ⊆ e.postorder := by
  induction e using Expr.induction with
  | constant | input | ref =>
    cases List.mem_singleton.1 h
    exact List.Subset.refl _
  | call n func args ih =>
    rcases mem_postorder_call.1 h with ⟨a, ha, hx⟩ | rfl
    · exact fun y hy => mem_postorder_call.2 (.inl ⟨a, ha, ih a ha hx hy⟩)
    · exact List.Subset.refl _
  | tuple n elems ih =>
    rcases mem_postorder_tuple.1 h with ⟨a, ha, hx⟩ | rfl
    · exact fun y hy => mem_postorder_tuple.2 (.inl ⟨a, ha, ih a ha hx hy⟩)
    · exact List.Subset.refl _
  | select n c t f hc ht hf =>
    rcases mem_postorder_select.1 h with hx | hx | hx | rfl
    · exact fun y hy => mem_postorder_select.2 (.inl (hc hx hy))
    · exact fun y hy => mem_postorder_select.2 (.inr (.inl (ht hx hy)))
    · exact fun y hy => mem_postorder_select.2 (.inr (.inr (.inl (hf hx hy))))
    · exact List.Subset.refl _
  | reduce n op reduced arg ih =>
    rcases mem_postorder_reduce.1 h with hx | rfl
    · exact fun y hy => mem_postorder_reduce.2 (.inl (ih hx hy))
    · exact List.Subset.refl _

/-- The notes of all nodes, each after those of its subexpressions. -/
def notes (e : Expr α ω) : List α := e.postorder.map note

theorem notes_call (n : α) (func : String) (args : List (Expr α ω)) :
    (call n func args).notes = args.flatMap notes ++ [n] := by
  rw [notes, postorder_call, List.map_append, List.map_flatMap]
  rfl

theorem notes_tuple (n : α) (elems : List (Expr α ω)) :
    (tuple n elems).notes = elems.flatMap notes ++ [n] := by
  rw [notes, postorder_tuple, List.map_append, List.map_flatMap]
  rfl

theorem notes_select (n : α) (c t f : Expr α ω) :
    (select n c t f).notes = c.notes ++ (t.notes ++ (f.notes ++ [n])) := by
  rw [notes, postorder_select, List.map_append, List.map_append, List.map_append]
  rfl

theorem notes_reduce (n : α) (op : String) (reduced : ω) (arg : Expr α ω) :
    (reduce n op reduced arg).notes = arg.notes ++ [n] := by
  rw [notes, postorder_reduce, List.map_append]
  rfl

section Leaves

variable {γ : Type} {f : Expr α ω → Option γ}

theorem filterMap_postorder_call {n : α} {func : String} {args : List (Expr α ω)}
    (h : f (.call n func args) = none) :
    (call n func args).postorder.filterMap f = args.flatMap fun e => e.postorder.filterMap f := by
  simp [postorder_call, List.filterMap_flatMap, h]

theorem filterMap_postorder_tuple {n : α} {elems : List (Expr α ω)}
    (h : f (.tuple n elems) = none) :
    (tuple n elems).postorder.filterMap f = elems.flatMap fun e => e.postorder.filterMap f := by
  simp [postorder_tuple, List.filterMap_flatMap, h]

theorem filterMap_postorder_select {n : α} {c t e : Expr α ω} (h : f (.select n c t e) = none) :
    (select n c t e).postorder.filterMap f =
      c.postorder.filterMap f ++ (t.postorder.filterMap f ++ e.postorder.filterMap f) := by
  simp [postorder_select, h]

theorem filterMap_postorder_reduce {n : α} {op : String} {reduced : ω} {arg : Expr α ω}
    (h : f (.reduce n op reduced arg) = none) :
    (reduce n op reduced arg).postorder.filterMap f = arg.postorder.filterMap f := by
  simp [postorder_reduce, h]

end Leaves

/-- The name that a node refers to. -/
def referent? : Expr α ω → Option String
  | .ref _ name => some name
  | _ => none

/-- The names of the declarations that an expression refers to. -/
def references (e : Expr α ω) : List String := e.postorder.filterMap referent?

@[simp] theorem references_constant (n : α) (v : Literal) :
    (constant n v : Expr α ω).references = [] := rfl

@[simp] theorem references_input (n : α) (path : FieldPath) :
    (input n path : Expr α ω).references = [] := rfl

@[simp] theorem references_ref (n : α) (name : String) :
    (ref n name : Expr α ω).references = [name] := rfl

@[simp] theorem references_call (n : α) (func : String) (args : List (Expr α ω)) :
    (call n func args).references = args.flatMap references :=
  filterMap_postorder_call rfl

@[simp] theorem references_tuple (n : α) (elems : List (Expr α ω)) :
    (tuple n elems).references = elems.flatMap references :=
  filterMap_postorder_tuple rfl

@[simp] theorem references_select (n : α) (c t f : Expr α ω) :
    (select n c t f).references = c.references ++ (t.references ++ f.references) :=
  filterMap_postorder_select rfl

@[simp] theorem references_reduce (n : α) (op : String) (reduced : ω) (arg : Expr α ω) :
    (reduce n op reduced arg).references = arg.references :=
  filterMap_postorder_reduce rfl

/-- The value of a constant. -/
def value? : Expr α ω → Option Literal
  | .constant _ v => some v
  | _ => none

/-- The values of all constants. -/
def constants (e : Expr α ω) : List Literal := e.postorder.filterMap value?

@[simp] theorem constants_constant (n : α) (v : Literal) :
    (constant n v : Expr α ω).constants = [v] := rfl

@[simp] theorem constants_input (n : α) (path : FieldPath) :
    (input n path : Expr α ω).constants = [] := rfl

@[simp] theorem constants_ref (n : α) (name : String) :
    (ref n name : Expr α ω).constants = [] := rfl

@[simp] theorem constants_call (n : α) (func : String) (args : List (Expr α ω)) :
    (call n func args).constants = args.flatMap constants :=
  filterMap_postorder_call rfl

@[simp] theorem constants_tuple (n : α) (elems : List (Expr α ω)) :
    (tuple n elems).constants = elems.flatMap constants :=
  filterMap_postorder_tuple rfl

@[simp] theorem constants_select (n : α) (c t f : Expr α ω) :
    (select n c t f).constants = c.constants ++ (t.constants ++ f.constants) :=
  filterMap_postorder_select rfl

@[simp] theorem constants_reduce (n : α) (op : String) (reduced : ω) (arg : Expr α ω) :
    (reduce n op reduced arg).constants = arg.constants :=
  filterMap_postorder_reduce rfl

mutual
/-- The expression with its notes changed. -/
def mapNotes (f : α → β) : Expr α ω → Expr β ω
  | .constant n v => .constant (f n) v
  | .input n path => .input (f n) path
  | .ref n name => .ref (f n) name
  | .call n func args => .call (f n) func (mapNotesAll f args)
  | .tuple n elems => .tuple (f n) (mapNotesAll f elems)
  | .select n c t e => .select (f n) (c.mapNotes f) (t.mapNotes f) (e.mapNotes f)
  | .reduce n op reduced arg => .reduce (f n) op reduced (arg.mapNotes f)

def mapNotesAll (f : α → β) : List (Expr α ω) → List (Expr β ω)
  | [] => []
  | e :: es => e.mapNotes f :: mapNotesAll f es
end

@[simp] theorem mapNotesAll_eq (f : α → β) (es : List (Expr α ω)) :
    mapNotesAll f es = es.map (mapNotes f) := by
  induction es with
  | nil => rfl
  | cons e es ih => rw [mapNotesAll, ih, List.map_cons]

@[simp] theorem note_mapNotes (f : α → β) (e : Expr α ω) : (e.mapNotes f).note = f e.note := by
  cases e <;> rfl

end Expr

/-- The mark without its numbers. -/
def Mark.unnumbered (m : Mark) : Mark := { m with node := ⟨0⟩, value := ⟨0⟩, topo := 0 }

@[simp] theorem Mark.stamp_unnumbered (m : Mark) : m.unnumbered.stamp = m.stamp := rfl

@[simp] theorem Mark.span_unnumbered (m : Mark) : m.unnumbered.span = m.span := rfl

namespace StampedExpr

theorem inputUsesAll_eq (es : List StampedExpr) : inputUsesAll es = es.flatMap inputUses := by
  induction es with
  | nil => rfl
  | cons e es ih => rw [inputUsesAll, ih, List.flatMap_cons]

/-- The expression without the numbers of its nodes. -/
def unnumbered (e : StampedExpr) : StampedExpr := e.mapNotes Mark.unnumbered

@[simp] theorem unnumbered_call (m : Mark) (func : String) (args : List StampedExpr) :
    unnumbered (.call m func args) = .call m.unnumbered func (args.map unnumbered) := by
  rw [unnumbered, Expr.mapNotes, Expr.mapNotesAll_eq]
  rfl

@[simp] theorem unnumbered_tuple (m : Mark) (elems : List StampedExpr) :
    unnumbered (.tuple m elems) = .tuple m.unnumbered (elems.map unnumbered) := by
  rw [unnumbered, Expr.mapNotes, Expr.mapNotesAll_eq]
  rfl

@[simp] theorem unnumbered_select (m : Mark) (c t f : StampedExpr) :
    unnumbered (.select m c t f) =
      .select m.unnumbered c.unnumbered t.unnumbered f.unnumbered := rfl

@[simp] theorem unnumbered_reduce (m : Mark) (op : String) (reduced : Axes) (arg : StampedExpr) :
    unnumbered (.reduce m op reduced arg) = .reduce m.unnumbered op reduced arg.unnumbered := rfl

@[simp] theorem axes_unnumbered (e : StampedExpr) : e.unnumbered.axes = e.axes := by
  simp [unnumbered, axes]

@[simp] theorem span_unnumbered (e : StampedExpr) : e.unnumbered.span = e.span := by
  simp [unnumbered, span]

@[simp] theorem inputUses_unnumbered (e : StampedExpr) : inputUses e.unnumbered = inputUses e := by
  induction e using Expr.induction with
  | constant | input | ref => rfl
  | call n func args ih =>
    simp only [unnumbered_call, inputUses, inputUsesAll_eq, List.flatMap_map]
    exact List.flatMap_congr ih
  | tuple n elems ih =>
    simp only [unnumbered_tuple, inputUses, inputUsesAll_eq, List.flatMap_map]
    exact List.flatMap_congr ih
  | select n c t f hc ht hf => simp only [unnumbered_select, inputUses, hc, ht, hf]
  | reduce n op reduced arg ih => simp only [unnumbered_reduce, inputUses, ih]

end StampedExpr

/-- The declaration without its numbers. -/
def StampedDecl.unnumbered (d : StampedDecl) : StampedDecl :=
  { d with body := d.body.unnumbered, topo := 0 }

end LoopNest
