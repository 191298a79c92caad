import LoopNest.Carrier
import LoopNest.Emission
import LoopNest.Function.Registry

/-! Lowering: the loop code of a stamped declaration. A node is evaluated inside loops over its
axes. Loops that are open and fit stay open, the others are closed, and what is missing is opened
over the collection that carries it. A reduction opens loops of its own inside of those. -/
namespace LoopNest
namespace Lowering

abbrev Lower := StateT Emission (Except Diagnostic)

/-- What a declaration is lowered against. -/
structure Env where
  carriers : CarrierMap
  registry : Registry

def fail {α : Type} (fault : Fault) (span : Span) : Lower α := throw (fault.diagnose span)

/-- Completes the diagnostics of a step. -/
def annotate {α : Type} (f : Diagnostic → Diagnostic) (step : Lower α) : Lower α :=
  fun e => (step e).mapError f

def emit (op : Op) (span : Span) : Lower Unit := modify fun e => e.emit none op span

def value (op : Op) (span : Span) : Lower Reg := modifyGet fun e => e.value op span

/-- The register where a path starts, and the keys that are left: the element of the innermost open
loop that a test accepts, whose carrier the path extends, or else the root field. -/
def enter (test : Frame → Bool) (path : FieldPath) (span : Span) : Lower (Reg × FieldPath) := do
  match (← get).frames.find? test, path with
  | some f, _ => return (f.element, path.drop f.carrier.length)
  | none, root :: keys => return (← value (.loadInput root) span, keys)
  | none, [] => fail .emptyPath span

/-- The register of the field at a path, from where a test lets it start. -/
def follow (test : Frame → Bool) (path : FieldPath) (dtype : Option DType) (span : Span) :
    Lower Reg := do
  let (base, keys) ← enter test path span
  modifyGet fun e => e.walk base dtype span keys

/-- The collection at a carrier, which lies properly inside of the element that it is taken from. -/
def collection (carrier : FieldPath) (span : Span) : Lower Reg :=
  follow (fun f => decide (f.carrier.length < carrier.length) && carrier.startsWith f.carrier)
    carrier none span

/-- The value of an input. -/
def inputValue (path : FieldPath) (dtype : DType) (span : Span) : Lower Reg :=
  follow (fun f => path.startsWith f.carrier) path (some dtype) span

/-- Opens a loop over the last of the given axes. -/
def openLoop (env : Env) (anchor : StampedExpr) (logical : Axes) : Lower Unit := do
  match logical.getLast? with
  | none => return
  | some axis =>
    let carrier ← Carrier.choose logical anchor env.carriers
    let c ← collection carrier anchor.span
    modify fun e => e.openLoop logical axis carrier c anchor.span

/-- Opens loops until the given axes are covered, from the `start`-th on. -/
def openFrom (env : Env) (anchor : StampedExpr) (target : Axes) (start : Nat) : Lower Unit :=
  (List.range' (start + 1) (target.length - start)).forM fun k =>
    openLoop env anchor (target.take k)

/-- Makes the open loops cover the given axes. Where they do already, nothing changes. -/
def align (env : Env) (target : Axes) (anchor : StampedExpr) : Lower Unit := do
  let current := (← get).logical
  if target.isPrefixOf current then return
  else
    modify fun e => e.closeBeyond (current.commonLength target) anchor.span
    openFrom env anchor target (← get).logical.length

/-- The value that a reduction starts from. -/
def identity (env : Env) (op : String) (dtype : DType) (span : Span) : Except Diagnostic Literal :=
  match env.registry.find? op with
  | none => .error ((Fault.unknownFunction op).diagnose span)
  | some f =>
    match f.identity.bind fun i => i.literal? dtype with
    | some v => .ok v
    | none => .error ((Fault.noIdentity op dtype).diagnose span)

/-- Opens the loops of a reduction, one for each reduced axis. -/
def openReduction (env : Env) (m : Mark) (op : String) (reduced : Axes) (arg : StampedExpr) :
    Lower Unit :=
  (List.range' 1 reduced.length).forM fun k =>
    let logical := m.stamp.axes ++ reduced.take k
    annotate (·.withCause ("opening loop " ++ logical.render ++ " of `" ++ op ++ "` over " ++
      reduced.render) (some m.span)) (openLoop env arg logical)

/-- Runs a step while the loops that are open now stay open. -/
def holding {α : Type} (step : Lower α) : Lower α := do
  let floor := (← get).floor
  modify fun e => { e with floor := e.frames.length }
  let r ← step
  modify fun e => { e with floor := floor }
  return r

/-- A reduction, given the step that evaluates its argument. -/
def reduction (env : Env) (m : Mark) (op : String) (reduced : Axes) (arg : StampedExpr)
    (argument : Lower Reg) : Lower Reg := do
  if arg.axes = [] then fail (.scalarReduction op) m.span
  else if arg.axes ≠ m.stamp.axes ++ reduced then
    fail (.reductionAxes arg.axes m.stamp.axes reduced) m.span
  else
    let start ← identity env op m.stamp.dtype m.span
    align env m.stamp.axes (.reduce m op reduced arg)
    let acc ← modifyGet fun e => e.declareAccumulator op start m.stamp.dtype m.span
    let depth := (← get).frames.length
    openReduction env m op reduced arg
    holding do
      let v ← argument
      emit (.accumulate acc op v) m.span
    modify fun e => e.closeTo depth m.span
    value (.loadAccumulator acc m.stamp.dtype) m.span

mutual
/-- Evaluates an expression inside the open loops; the result is the register of its value. -/
def lower (env : Env) : StampedExpr → Lower Reg
  | .constant m v => value (.constant v m.stamp.dtype) m.span
  | .input m path => inputValue path m.stamp.dtype m.span
  | .ref m name => value (.loadDeclaration name m.stamp.axes m.stamp.dtype) m.span
  | .call m func args => do
    let args ← lowerAll env args
    value (.kernelCall func args m.stamp.dtype) m.span
  | .tuple m elems => do
    let elems ← lowerAll env elems
    value (.makeTuple elems m.stamp.dtype) m.span
  | .select m c t f => do
    align env m.stamp.axes (.select m c t f)
    let c ← lower env c
    let t ← lower env t
    let f ← lower env f
    value (.select c t f m.stamp.dtype) m.span
  | .reduce m op reduced arg => reduction env m op reduced arg (lower env arg)

def lowerAll (env : Env) : List StampedExpr → Lower (List Reg)
  | [] => pure []
  | e :: es => do
    let r ← lower env e
    return r :: (← lowerAll env es)
end

/-- The whole code of a body: its loops, its value, the yield, and the ends of its loops. -/
def lowerBody (env : Env) (body : StampedExpr) : Lower Unit := do
  align env body.axes body
  let v ← lower env body
  emit (.yield v) body.span
  modify fun e => e.closeTo 0 body.span

end Lowering

/-- The code of a declaration; registers, loops and accumulators are numbered from zero. -/
def LoopCode.ofDecl (d : StampedDecl) (carriers : CarrierMap) (registry : Registry) :
    Except Diagnostic LoopCode :=
  match (Lowering.lowerBody ⟨carriers, registry⟩ d.body).run .empty with
  | .error e => .error (e.inDecl d.name)
  | .ok (_, e) => .ok ⟨d.name, d.kind, d.stamp.axes, d.stamp.dtype, e.code⟩

/-- The code of all declarations, in order. -/
def LoopModule.ofStamped (m : StampedModule) (carriers : CarrierMap) (registry : Registry) :
    Except Diagnostic LoopModule := do
  return ⟨← m.decls.mapM fun d => LoopCode.ofDecl d carriers registry⟩

end LoopNest
