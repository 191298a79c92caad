import LoopNest.Fault
import LoopNest.OrderedMap

/-! The table of inputs by field path, and declaration graphs: declarations in order of definition
with distinct names, and with their nodes numbered through the whole module, each node after its
subexpressions. -/
namespace LoopNest

/-- What is known of an input. -/
structure InputEntry where
  axes : Axes
  dtype : DType
  span : Span
  deriving DecidableEq

abbrev InputTable := OrderedMap FieldPath.compare InputEntry

namespace InputTable

/-- Enters an input; a later one takes the place of an equal path. -/
def put (t : InputTable) (d : DeclaredInput) : InputTable :=
  t.insert d.path ⟨d.axes, d.dtype, d.span⟩

/-- Enters the inputs of a list into a table, unless a path is there already. -/
def declareAll (t : InputTable) : List DeclaredInput → Except Diagnostic InputTable
  | [] => .ok t
  | d :: ds =>
    if t.contains d.path then .error ((Fault.duplicateInput d.path).diagnose d.span)
    else declareAll (t.put d) ds

def ofDecls (ds : List DeclaredInput) : Except Diagnostic InputTable := declareAll .empty ds

end InputTable

namespace Expr

mutual
/-- Numbers the nodes of an expression from `next` on; also gives the next free number. -/
def number (next : Nat) : SourceExpr → GraphExpr × Nat
  | .constant span v => (.constant ⟨⟨next⟩, span⟩ v, next + 1)
  | .input span p => (.input ⟨⟨next⟩, span⟩ p, next + 1)
  | .ref span n => (.ref ⟨⟨next⟩, span⟩ n, next + 1)
  | .call span f args =>
    let (args, next) := numberAll next args
    (.call ⟨⟨next⟩, span⟩ f args, next + 1)
  | .tuple span elems =>
    let (elems, next) := numberAll next elems
    (.tuple ⟨⟨next⟩, span⟩ elems, next + 1)
  | .select span c t f =>
    let (c, next) := c.number next
    let (t, next) := t.number next
    let (f, next) := f.number next
    (.select ⟨⟨next⟩, span⟩ c t f, next + 1)
  | .reduce span op reduced arg =>
    let (arg, next) := arg.number next
    (.reduce ⟨⟨next⟩, span⟩ op reduced arg, next + 1)

def numberAll (next : Nat) : List SourceExpr → List GraphExpr × Nat
  | [] => ([], next)
  | e :: es =>
    let (e, next) := e.number next
    let (es, next) := numberAll next es
    (e :: es, next)
end

end Expr

structure Graph where
  declarations : List (Declaration Node)

namespace Graph

def find? (g : Graph) (name : String) : Option (Declaration Node) :=
  g.declarations.find? (·.name == name)

def size (g : Graph) : Nat := g.declarations.length

/-- Numbers the nodes of the declarations, from `next` on. -/
def numberFrom (next : Nat) : List (Declaration Span) → List (Declaration Node)
  | [] => []
  | d :: ds =>
    let (body, next) := d.body.number next
    ⟨d.name, d.kind, body, d.span⟩ :: numberFrom next ds

/-- The first declaration whose name has been used before it. -/
def firstDuplicate? (seen : List String) : List (Declaration Span) → Option (Declaration Span)
  | [] => none
  | d :: ds => if seen.contains d.name then some d else firstDuplicate? (d.name :: seen) ds

def ofDeclarations (ds : List (Declaration Span)) : Except Diagnostic Graph :=
  match firstDuplicate? [] ds with
  | some d => .error ((Fault.duplicateDeclaration d.name).diagnose d.span)
  | none => .ok ⟨numberFrom 0 ds⟩

end Graph
end LoopNest
