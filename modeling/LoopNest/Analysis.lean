import LoopNest.Function.Registry
import LoopNest.Graph
import LoopNest.Stamp.Basic

/-! Dimensional analysis: the axes and the type of every node, from the inputs up. Elementwise calls
and constructors broadcast their arguments along the prefix order, a reduction drops the axes that
it reduces, and a reference has the stamp of the declaration that it names. -/
namespace LoopNest

/-- The axes that a reduction collapses. -/
structure Reduction where
  /-- The reduced tail of the argument's axes; empty for a scalar. -/
  reduced : Axes
  last : Option Axis
  deriving DecidableEq

/-- What the analysis finds out about a node. -/
structure NodeFacts where
  axes : Axes
  dtype : DType
  /-- For each argument, whether it has to be broadcast to the axes of the node. -/
  expand : List Bool
  reduction : Option Reduction
  deriving DecidableEq

namespace NodeFacts

def stamp (i : NodeFacts) : Stamp := ⟨i.axes, i.dtype⟩

def leaf (axes : Axes) (dtype : DType) : NodeFacts := ⟨axes, dtype, [], none⟩

/-- A node whose arguments are broadcast to its axes. -/
def broadcast (axes : Axes) (dtype : DType) (args : List NodeFacts) : NodeFacts :=
  ⟨axes, dtype, args.map fun a => a.axes != axes, none⟩

end NodeFacts

/-- The results for the nodes and the declarations of a module. -/
structure Analysis where
  nodes : List (NodeId × NodeFacts)
  decls : List (String × Stamp)

namespace Analysis

def empty : Analysis := ⟨[], []⟩

def node? (a : Analysis) (id : NodeId) : Option NodeFacts := a.nodes.lookup id

def decl? (a : Analysis) (name : String) : Option Stamp := a.decls.lookup name

/-- What an expression is analyzed against: the inputs, the functions, and the stamps of the
declarations before. -/
structure Env where
  inputs : InputTable
  registry : Registry
  decls : List (String × Stamp)

/-- The information on an expression, with that on all its nodes, each after its subexpressions. -/
structure Inference where
  info : NodeFacts
  nodes : List (NodeId × NodeFacts)

def function (env : Env) (id : String) (span : Span) : Except Diagnostic Signature :=
  match env.registry.find? id with
  | some f => .ok f
  | none => .error ((Fault.unknownFunction id).diagnose span)

/-- The common axes of the arguments. -/
def combinedAxes (args : List NodeFacts) (span : Span) : Except Diagnostic Axes :=
  match Axes.lub (args.map NodeFacts.axes) with
  | .ok axes => .ok axes
  | .error c => .error ((Fault.broadcastConflict c).diagnose span)

/-- The type that a function gives for the types of the arguments. -/
def resultType (f : Signature) (args : List NodeFacts) (span : Span) :
    Except Diagnostic DType :=
  match f.nameTypes (args.map NodeFacts.dtype) with
  | .error e => .error ((Fault.arity e).diagnose span)
  | .ok named =>
    match f.rule.apply named with
    | .error e => .error ((Fault.typeRule f.id e).diagnose span)
    | .ok t => .ok t

/-- What is left of the argument's axes, and what is reduced: the given axes, which have to end
them, or else the innermost axis. -/
def reducedAxes (reduced : Option Axes) (argument : Axes) (span : Span) :
    Except Diagnostic (Axes × Reduction) :=
  match reduced with
  | none | some [] =>
    let (rest, last) := argument.splitLast
    .ok (rest, ⟨last.toList, last⟩)
  | some reduced =>
    match argument.dropTail? reduced with
    | some rest => .ok (rest, ⟨reduced, reduced.getLast?⟩)
    | none => .error ((Fault.overNotSuffix reduced argument).diagnose span)

def reduceRule (f : Signature) (reduced : Option Axes) (args : List NodeFacts) (span : Span) :
    Except Diagnostic NodeFacts :=
  match args with
  | [arg] => do
    let (axes, reduction) ← reducedAxes reduced arg.axes span
    let dtype ← resultType f args span
    return ⟨axes, dtype, [false], some reduction⟩
  | _ => .error ((Fault.reducerArity f.id args.length).diagnose span)

def callRule (env : Env) (id : String) (args : List NodeFacts) (span : Span) :
    Except Diagnostic NodeFacts := do
  let f ← function env id span
  match f.kind with
  | .reduce => reduceRule f none args span
  | .elementwise | .constructor =>
    let axes ← combinedAxes args span
    let dtype ← resultType f args span
    return .broadcast axes dtype args

def tupleRule (args : List NodeFacts) (span : Span) : Except Diagnostic NodeFacts := do
  let axes ← combinedAxes args span
  return .broadcast axes (.tuple (args.map NodeFacts.dtype)) args

def selectRule (cond onTrue onFalse : NodeFacts) (span : Span) : Except Diagnostic NodeFacts := do
  let axes ← combinedAxes [cond, onTrue, onFalse] span
  if cond.dtype = .boolean then
    match onTrue.dtype.promote? onFalse.dtype with
    | some dtype => return .broadcast axes dtype [cond, onTrue, onFalse]
    | none => throw ((Fault.branchTypes onTrue.dtype onFalse.dtype).diagnose span)
  else throw ((Fault.conditionType cond.dtype).diagnose span)

def inputRule (env : Env) (path : FieldPath) (span : Span) : Except Diagnostic NodeFacts :=
  match env.inputs.find? path with
  | some spec => .ok (.leaf spec.axes spec.dtype)
  | none => .error ((Fault.unknownInput path).diagnose span)

def refRule (env : Env) (name : String) (span : Span) : Except Diagnostic NodeFacts :=
  match env.decls.lookup name with
  | some stamp => .ok (.leaf stamp.axes stamp.dtype)
  | none => .error ((Fault.unknownDeclaration name).diagnose span)

def explicitReduceRule (env : Env) (op : String) (reduced : Option Axes) (arg : NodeFacts)
    (span : Span) : Except Diagnostic NodeFacts := do
  let f ← function env op span
  match f.kind with
  | .reduce => reduceRule f reduced [arg] span
  | kind => throw ((Fault.notReducer op kind).diagnose span)

/-- Adds a node with its information after the nodes of its subexpressions. -/
def Inference.node (note : Node) (below : List (NodeId × NodeFacts)) (info : NodeFacts) :
    Inference :=
  ⟨info, below ++ [(note.id, info)]⟩

mutual
/-- The information on an expression, or its first fault: subexpressions come first, from left to
right. -/
def infer (env : Env) : GraphExpr → Except Diagnostic Inference
  | .constant n v => .ok (.node n [] (.leaf [] v.dtype))
  | .input n path => do return .node n [] (← inputRule env path n.span)
  | .ref n name => do return .node n [] (← refRule env name n.span)
  | .call n func args => do
    let (infos, nodes) ← inferAll env args
    return .node n nodes (← callRule env func infos n.span)
  | .tuple n elems => do
    let (infos, nodes) ← inferAll env elems
    return .node n nodes (← tupleRule infos n.span)
  | .select n c t f => do
    let c ← infer env c
    let t ← infer env t
    let f ← infer env f
    return .node n (c.nodes ++ (t.nodes ++ f.nodes)) (← selectRule c.info t.info f.info n.span)
  | .reduce n op reduced arg => do
    let arg ← infer env arg
    return .node n arg.nodes (← explicitReduceRule env op reduced arg.info n.span)

def inferAll (env : Env) :
    List GraphExpr → Except Diagnostic (List NodeFacts × List (NodeId × NodeFacts))
  | [] => .ok ([], [])
  | e :: es => do
    let first ← infer env e
    let (infos, nodes) ← inferAll env es
    return (first.info :: infos, first.nodes ++ nodes)
end

/-- Analyzes declarations after those that an analysis covers already. -/
def extend (inputs : InputTable) (registry : Registry) (a : Analysis) :
    List (Declaration Node) → Except Diagnostic Analysis
  | [] => .ok a
  | d :: ds =>
    match infer ⟨inputs, registry, a.decls⟩ d.body with
    | .error e => .error (e.inDecl d.name)
    | .ok r => extend inputs registry ⟨a.nodes ++ r.nodes, a.decls ++ [(d.name, r.info.stamp)]⟩ ds

/-- Analyzes the declarations of a graph in order. -/
def ofGraph (g : Graph) (inputs : InputTable) (registry : Registry) : Except Diagnostic Analysis :=
  extend inputs registry .empty g.declarations

end Analysis
end LoopNest
