import LoopNest.Analysis
import Mathlib.Data.List.Forall2

/-! The rules of the analysis, as relations: which vector joins others, what a reduction leaves,
what type a function gives, and with these which stamp an expression has. -/
namespace LoopNest

namespace Axes

/-- The least vector, in the prefix order, that all of some vectors are prefixes of. -/
structure IsJoin (vectors : List Axes) (a : Axes) : Prop where
  bound : ∀ v ∈ vectors, v <+: a
  least : ∀ b, (∀ v ∈ vectors, v <+: b) → a <+: b

/-- What a reduction leaves of the axes of its argument. Named axes have to end them; where none are
named the innermost axis goes, if there is one. -/
inductive Leaves : Option Axes → Axes → Axes → Prop
  | named {reduced rest : Axes} : reduced ≠ [] → Leaves (some reduced) (rest ++ reduced) rest
  | innermost {hint : Option Axes} {rest : Axes} {last : Axis} :
    hint.getD [] = [] → Leaves hint (rest ++ [last]) rest
  | scalar {hint : Option Axes} : hint.getD [] = [] → Leaves hint [] []

theorem Leaves.isPrefix {hint : Option Axes} {argument rest : Axes}
    (h : Leaves hint argument rest) : rest <+: argument := by
  cases h with
  | named _ | innermost _ => exact List.prefix_append _ _
  | scalar _ => exact List.prefix_refl _

end Axes

namespace DType

/-- The type of both branches of a selection. -/
inductive Common : DType → DType → DType → Prop
  | same {t : DType} : Common t t t
  | numbers {a b : DType} : a.isNumeric = true → b.isNumeric = true → a ≠ b → Common a b .float

/-- The common type of some numbers: one `float` among them makes it so. -/
structure Promotes (types : List DType) (t : DType) : Prop where
  nonempty : types ≠ []
  numeric : ∀ u ∈ types, u.isNumeric = true
  result : t = if .float ∈ types then .float else .integer

end DType

/-- What a type rule gives for the types of the arguments, by the names of the parameters. -/
inductive TypeRule.Gives (params : List String) (variadic : Bool) (types : List DType) :
    TypeRule → DType → Prop
  | fixed {t : DType} : Gives params variadic types (.fixed t) t
  | promote {t : DType} : DType.Promotes types t → Gives params variadic types .promote t
  | tupleOf : Gives params variadic types .tupleOf (.tuple types)
  /-- The type of the argument for the first parameter of that name. -/
  | param {name : String} {t : DType} : variadic = false → name ∈ params →
    types[params.idxOf name]? = some t → Gives params variadic types (.same name) t
  /-- All arguments of a variadic function stand under the name of its first parameter. -/
  | list {name : String} {t : DType} : variadic = true → params.head?.getD "args" = name →
    types ≠ [] → (∀ u ∈ types, u = t) → Gives params variadic types (.same name) t

/-- What a function returns for the types of its arguments. Their number has to be that of the
parameters, unless the function is variadic. -/
structure Signature.Returns (f : Signature) (types : List DType) (t : DType) : Prop where
  arity : f.variadic = true ∨ types.length = f.params.length
  rule : f.rule.Gives f.params f.variadic types t

namespace Analysis

/-- The stamp that a reduction gets from that of its argument. -/
inductive ReduceStamp (registry : Registry) (op : String) (hint : Option Axes) (arg : Stamp) :
    Stamp → Prop
  | mk {f : Signature} {rest : Axes} {dtype : DType} :
    registry.find? op = some f → f.kind = .reduce → Axes.Leaves hint arg.axes rest →
    f.Returns [arg.dtype] dtype → ReduceStamp registry op hint arg ⟨rest, dtype⟩

/-- The stamp that a call gets from those of its arguments. A call of a reducer is a reduction of
its one argument along the innermost axis; other functions broadcast. -/
inductive CallStamp (registry : Registry) (func : String) : List Stamp → Stamp → Prop
  | broadcast {f : Signature} {args : List Stamp} {axes : Axes} {dtype : DType} :
    registry.find? func = some f → f.kind ≠ .reduce → Axes.IsJoin (args.map Stamp.axes) axes →
    f.Returns (args.map Stamp.dtype) dtype → CallStamp registry func args ⟨axes, dtype⟩
  | reduction {arg s : Stamp} : ReduceStamp registry func none arg s →
    CallStamp registry func [arg] s

/-- An expression has a stamp, given the inputs, the functions and the declarations before. -/
inductive HasStamp (env : Env) : GraphExpr → Stamp → Prop
  | constant {n : Node} {v : Literal} : HasStamp env (.constant n v) ⟨[], v.dtype⟩
  | input {n : Node} {path : FieldPath} {entry : InputEntry} :
    env.inputs.find? path = some entry → HasStamp env (.input n path) ⟨entry.axes, entry.dtype⟩
  | ref {n : Node} {name : String} {s : Stamp} :
    (name, s) ∈ env.decls → HasStamp env (.ref n name) s
  | call {n : Node} {func : String} {args : List GraphExpr} {stamps : List Stamp} {s : Stamp} :
    List.Forall₂ (HasStamp env) args stamps → CallStamp env.registry func stamps s →
    HasStamp env (.call n func args) s
  | tuple {n : Node} {elems : List GraphExpr} {stamps : List Stamp} {axes : Axes} :
    List.Forall₂ (HasStamp env) elems stamps → Axes.IsJoin (stamps.map Stamp.axes) axes →
    HasStamp env (.tuple n elems) ⟨axes, .tuple (stamps.map Stamp.dtype)⟩
  | select {n : Node} {c t f : GraphExpr} {sc st sf : Stamp} {axes : Axes} {dtype : DType} :
    HasStamp env c sc → HasStamp env t st → HasStamp env f sf → sc.dtype = .boolean →
    Axes.IsJoin [sc.axes, st.axes, sf.axes] axes → DType.Common st.dtype sf.dtype dtype →
    HasStamp env (.select n c t f) ⟨axes, dtype⟩
  | reduce {n : Node} {op : String} {hint : Option Axes} {arg : GraphExpr} {sa s : Stamp} :
    HasStamp env arg sa → ReduceStamp env.registry op hint sa s →
    HasStamp env (.reduce n op hint arg) s

end Analysis
end LoopNest
