import LoopNest.Analysis

/-! Stamping: the tree with the results of the analysis on its nodes. A call of a reducer becomes
a reduction. -/
namespace LoopNest
namespace Stamping

abbrev Marking := StateT ModuleCounter (Except Diagnostic)

def fail {α : Type} (fault : Fault) (span : Span) : Marking α := throw (fault.diagnose span)

/-- What the analysis has on a node. -/
def info (analysis : Analysis) (n : Node) : Marking NodeFacts :=
  match analysis.node? n.id with
  | some i => pure i
  | none => fail (.unanalyzed n.id) n.span

/-- Numbers a value and its place in the evaluation order. -/
def mark (n : Node) (stamp : Stamp) (plan : Option Plan) : Marking Mark := do
  let (value, c) := (← get).nextValue
  let (topo, c) := c.nextTopo
  set c
  return ⟨n.id, value, topo, stamp, plan, n.span⟩

/-- The axes of a selection: those of its branches, or of its mask where the branches are scalar.
The mask has to be a prefix of the branches. -/
def selectAxes (mask onTrue onFalse : Axes) : Except Fault Axes :=
  match Axes.lub [onTrue, onFalse] with
  | .error c => .error (.branchConflict c)
  | .ok [] => .ok mask
  | .ok branches =>
    if mask.isPrefixOf branches then .ok branches else .error (.maskConflict mask branches)

/-- The node of a call, once its arguments are stamped. -/
def stampCall (registry : Registry) (i : NodeFacts) (n : Node) (func : String)
    (args : List StampedExpr) : Marking StampedExpr :=
  match (registry.find? func).map Signature.kind, i.reduction with
  | some .reduce, some r =>
    match args with
    | [arg] => do return .reduce (← mark n i.stamp (some (.reduce r.last))) func r.reduced arg
    | _ => fail (.reductionArity args.length) n.span
  | some .constructor, _ => do
    let plan := Plan.constructor args.length i.axes i.expand
    return .call (← mark n i.stamp (some plan)) func args
  | _, _ => do
    return .call (← mark n i.stamp (some (.elementwise i.axes i.expand))) func args

/-- The node of a selection, once its operands are stamped. -/
def stampSelect (i : NodeFacts) (n : Node) (c t f : StampedExpr) : Marking StampedExpr :=
  match selectAxes c.axes t.axes f.axes with
  | .error fault => fail fault n.span
  | .ok axes => do
    let expand := [c, t, f].map fun e => e.axes != axes
    return .select (← mark n ⟨axes, i.dtype⟩ (some (.elementwise axes expand))) c t f

mutual
def stampExpr (analysis : Analysis) (registry : Registry) : GraphExpr → Marking StampedExpr
  | .constant n v => do
    let i ← info analysis n
    return .constant (← mark n i.stamp none) v
  | .input n path => do
    let i ← info analysis n
    return .input (← mark n i.stamp none) path
  | .ref n name => do
    let i ← info analysis n
    return .ref (← mark n i.stamp none) name
  | .call n func args => do
    let i ← info analysis n
    let args ← stampAll analysis registry args
    stampCall registry i n func args
  | .tuple n elems => do
    let i ← info analysis n
    let elems ← stampAll analysis registry elems
    let plan := Plan.constructor elems.length i.axes i.expand
    return .tuple (← mark n i.stamp (some plan)) elems
  | .select n c t f => do
    let i ← info analysis n
    let c ← stampExpr analysis registry c
    let t ← stampExpr analysis registry t
    let f ← stampExpr analysis registry f
    stampSelect i n c t f
  | .reduce n op _ arg => do
    let i ← info analysis n
    let arg ← stampExpr analysis registry arg
    let r := i.reduction.getD ⟨[], none⟩
    return .reduce (← mark n i.stamp (some (.reduce r.last))) op r.reduced arg

def stampAll (analysis : Analysis) (registry : Registry) :
    List GraphExpr → Marking (List StampedExpr)
  | [] => pure []
  | e :: es => do
    let e ← stampExpr analysis registry e
    return e :: (← stampAll analysis registry es)
end

/-- A declaration at its place; the body of a trait has to be boolean. -/
def stampDecl (analysis : Analysis) (registry : Registry) (topo : Nat) (d : Declaration Node) :
    Marking StampedDecl := do
  let body ← stampExpr analysis registry d.body
  if d.kind = .trait ∧ body.dtype ≠ .boolean then
    fail (.traitNotBoolean d.name body.dtype) d.span
  else return ⟨d.name, d.kind, body, body.note.stamp, topo, d.span⟩

/-- Stamps declarations from a place and a counter on. -/
def stampDecls (analysis : Analysis) (registry : Registry) (topo : Nat) (c : ModuleCounter) :
    List (Declaration Node) → Except Diagnostic (List StampedDecl)
  | [] => .ok []
  | d :: ds =>
    match (stampDecl analysis registry topo d).run c with
    | .error e => .error (e.inDecl d.name)
    | .ok (decl, c) => do return decl :: (← stampDecls analysis registry (topo + 1) c ds)

end Stamping

/-- Stamps the declarations of a graph in order. -/
def StampedModule.ofGraph (g : Graph) (analysis : Analysis) (registry : Registry) :
    Except Diagnostic StampedModule := do
  return ⟨← Stamping.stampDecls analysis registry 0 .zero g.declarations⟩

end LoopNest
