import LoopNest.Expr

/-! Stamps: the axes and the type of a node, and how it combines its arguments. -/
namespace LoopNest

/-- The axes that a value varies over, and its type. -/
structure Stamp where
  axes : Axes
  dtype : DType
  deriving DecidableEq

def Stamp.render (s : Stamp) : String := s.axes.render ++ " " ++ s.dtype.render

/-- How a node combines its arguments. An argument expands if its axes are not those of the node. -/
inductive Plan where
  | elementwise (target : Axes) (expand : List Bool)
  | reduce (last : Option Axis)
  | constructor (arity : Nat) (target : Axes) (expand : List Bool)
  deriving DecidableEq

/-- The note of a stamped node. Leaves have no plan. -/
structure Mark where
  node : NodeId
  value : ValueId
  /-- The place in the evaluation order of the module. -/
  topo : Nat
  stamp : Stamp
  plan : Option Plan
  span : Span
  deriving DecidableEq

/-- A stamped expression; its reductions name the axes that they reduce. -/
abbrev StampedExpr := Expr Mark Axes

namespace StampedExpr

def axes (e : StampedExpr) : Axes := e.note.stamp.axes

def dtype (e : StampedExpr) : DType := e.note.stamp.dtype

def span (e : StampedExpr) : Span := e.note.span

end StampedExpr

/-- A place where an expression reads an input. -/
structure InputUse where
  path : FieldPath
  axes : Axes
  span : Span
  deriving DecidableEq

namespace StampedExpr

mutual
/-- The inputs that an expression reads, from left to right. -/
def inputUses : StampedExpr → List InputUse
  | .constant .. | .ref .. => []
  | .input mark path => [⟨path, mark.stamp.axes, mark.span⟩]
  | .call _ _ args => inputUsesAll args
  | .tuple _ elems => inputUsesAll elems
  | .select _ c t f => inputUses c ++ (inputUses t ++ inputUses f)
  | .reduce _ _ _ arg => inputUses arg

def inputUsesAll : List StampedExpr → List InputUse
  | [] => []
  | e :: es => inputUses e ++ inputUsesAll es
end

end StampedExpr

structure StampedDecl where
  name : String
  kind : DeclKind
  body : StampedExpr
  stamp : Stamp
  topo : Nat
  span : Span

structure StampedModule where
  decls : List StampedDecl

def StampedModule.find? (m : StampedModule) (name : String) : Option StampedDecl :=
  m.decls.find? (·.name == name)

end LoopNest
