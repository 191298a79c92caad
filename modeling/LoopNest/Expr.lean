import LoopNest.Axes
import LoopNest.Diagnostic
import LoopNest.Ident
import LoopNest.Literal

/-! Expressions and declarations, and modules as written. The trees carry a note at every node: its
source span as read, its number besides once the declarations form a graph, and later its stamp. -/
namespace LoopNest

/-- An expression with a note of type `α` at each node. Reductions name the reduced axes by a value
of type `ω`. -/
inductive Expr (α ω : Type) where
  | constant (note : α) (value : Literal)
  | input (note : α) (path : FieldPath)
  | ref (note : α) (name : String)
  | call (note : α) (func : String) (args : List (Expr α ω))
  | tuple (note : α) (elems : List (Expr α ω))
  | select (note : α) (cond onTrue onFalse : Expr α ω)
  | reduce (note : α) (op : String) (reduced : ω) (arg : Expr α ω)

namespace Expr

variable {α ω : Type}

def note : Expr α ω → α
  | .constant n _ | .input n _ | .ref n _ | .call n _ _ | .tuple n _ | .select n _ _ _
  | .reduce n _ _ _ => n

mutual
/-- All nodes, each after its subexpressions. -/
def postorder : Expr α ω → List (Expr α ω)
  | .constant n v => [.constant n v]
  | .input n p => [.input n p]
  | .ref n m => [.ref n m]
  | .call n f args => postorderAll args ++ [.call n f args]
  | .tuple n elems => postorderAll elems ++ [.tuple n elems]
  | .select n c t f => c.postorder ++ (t.postorder ++ (f.postorder ++ [.select n c t f]))
  | .reduce n op reduced arg => arg.postorder ++ [.reduce n op reduced arg]

def postorderAll : List (Expr α ω) → List (Expr α ω)
  | [] => []
  | e :: es => e.postorder ++ postorderAll es
end

end Expr

/-- The note of a node in a graph: its number and its source span. -/
structure Node where
  id : NodeId
  span : Span
  deriving DecidableEq

/-- An expression as written. A reduction without axes is over the innermost one. -/
abbrev SourceExpr := Expr Span (Option Axes)

/-- An expression with numbered nodes. -/
abbrev GraphExpr := Expr Node (Option Axes)

/-- A trait is a named boolean predicate. -/
inductive DeclKind where
  | value
  | trait
  deriving DecidableEq

def DeclKind.text : DeclKind → String
  | .value => "value"
  | .trait => "trait"

/-- A declaration with a note of type `α` at each node of its body. -/
structure Declaration (α : Type) where
  name : String
  kind : DeclKind
  body : Expr α (Option Axes)
  span : Span

/-- An input as declared. -/
structure DeclaredInput where
  path : FieldPath
  axes : Axes
  dtype : DType
  span : Span
  deriving DecidableEq

structure SourceModule where
  inputs : List DeclaredInput
  declarations : List (Declaration Span)
  span : Span

end LoopNest
