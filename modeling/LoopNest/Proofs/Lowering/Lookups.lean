import LoopNest.Lowering
import LoopNest.Proofs.Expressions

/-! The lookups of a lowering. Registers are asked for by paths: for the value of an input, and for
the collection of a loop. Here each query is logged before it is answered, with the code that is
there at that time. The log is kept where lowering fails. Apart from it nothing changes. -/
namespace LoopNest
namespace Lowering

/-- What is asked for: the value of an input, or the collection of a loop over the last of some
axes. -/
inductive Query where
  | input (m : Mark) (path : FieldPath)
  | loop (logical : Axes) (anchor : StampedExpr)

/-- The path that is asked for. -/
def Query.path (env : Env) : Query → Except Diagnostic FieldPath
  | .input _ path => .ok path
  | .loop logical anchor => Carrier.choose logical anchor env.carriers

/-- The register that a query gets. -/
def Query.answer (env : Env) : Query → Lower Reg
  | .input m path => inputValue path m.stamp.dtype m.span
  | .loop logical anchor => do
    let carrier ← Carrier.choose logical anchor env.carriers
    collection carrier anchor.span

/-- A query and the code before it. -/
structure Lookup where
  query : Query
  before : Emission

namespace Lookup

/-- The input that is asked for. -/
def use? (a : Lookup) : Option InputUse :=
  match a.query with
  | .input m path => some ⟨path, m.stamp.axes, m.span⟩
  | .loop .. => none

/-- The axis of the loop and the collection that it gets. -/
def opening? (env : Env) (a : Lookup) : Option (Axis × Reg) :=
  match a.query with
  | .input .. => none
  | .loop logical _ => do
    let axis ← logical.getLast?
    let (collection, _) ← (a.query.answer env a.before).toOption
    return (axis, collection)

/-- Whether a path has the keys that are taken of it: the first one, where it starts at the root, or
those after a carrier, where it starts at the element of a loop. -/
def StartsAt (path : FieldPath) : Option Frame → Prop
  | none => 0 < path.length
  | some f => f.carrier.length ≤ path.length

/-- No key is taken from outside of a path. An input with an empty path is refused before. A loop is
over at least one axis, and its carrier has a key for each of the axes. -/
def InRange (env : Env) (a : Lookup) : Prop :=
  match a.query with
  | .input m [] => a.query.answer env a.before = .error (Fault.emptyPath.diagnose m.span)
  | .input _ path => StartsAt path (a.before.frames.find? fun f => path.startsWith f.carrier)
  | .loop logical anchor => logical ≠ [] ∧
    ∀ carrier, Carrier.choose logical anchor env.carriers = .ok carrier →
      carrier.length = logical.length ∧
        StartsAt carrier (a.before.frames.find? fun f =>
          decide (f.carrier.length < carrier.length) && carrier.startsWith f.carrier)

end Lookup

abbrev Logged := StateT Emission (ExceptT Diagnostic (StateM (List Lookup)))

namespace Logged

variable {α β : Type}

/-- A step without queries. -/
def quiet (x : Lower α) : Logged α := fun st log => (x st, log)

/-- A step that begins with a query. -/
def asking (q : Query) (x : Lower α) : Logged α := fun st log => (x st, log ++ [⟨q, st⟩])

def annotate (f : Diagnostic → Diagnostic) (x : Logged α) : Logged α := fun st log =>
  ((x st log).1.mapError f, (x st log).2)

def openLoop (env : Env) (anchor : StampedExpr) (logical : Axes) : Logged Unit :=
  asking (.loop logical anchor) (Lowering.openLoop env anchor logical)

def openFrom (env : Env) (anchor : StampedExpr) (target : Axes) (start : Nat) : Logged Unit :=
  (List.range' (start + 1) (target.length - start)).forM fun k =>
    openLoop env anchor (target.take k)

def align (env : Env) (target : Axes) (anchor : StampedExpr) : Logged Unit := do
  let current := (← quiet get).logical
  if target.isPrefixOf current then return
  else
    quiet (modify fun e => e.closeBeyond (current.commonLength target) anchor.span)
    openFrom env anchor target (← quiet get).logical.length

def openReduction (env : Env) (m : Mark) (op : String) (reduced : Axes) (arg : StampedExpr) :
    Logged Unit :=
  (List.range' 1 reduced.length).forM fun k =>
    let logical := m.stamp.axes ++ reduced.take k
    annotate (·.withCause ("opening loop " ++ logical.render ++ " of `" ++ op ++ "` over " ++
      reduced.render) (some m.span)) (openLoop env arg logical)

def holding (step : Logged α) : Logged α := do
  let floor := (← quiet get).floor
  quiet (modify fun e => { e with floor := e.frames.length })
  let r ← step
  quiet (modify fun e => { e with floor := floor })
  return r

def reduction (env : Env) (m : Mark) (op : String) (reduced : Axes) (arg : StampedExpr)
    (argument : Logged Reg) : Logged Reg := do
  if arg.axes = [] then quiet (fail (.scalarReduction op) m.span)
  else if arg.axes ≠ m.stamp.axes ++ reduced then
    quiet (fail (.reductionAxes arg.axes m.stamp.axes reduced) m.span)
  else
    let start ← quiet (identity env op m.stamp.dtype m.span)
    align env m.stamp.axes (.reduce m op reduced arg)
    let acc ← quiet (modifyGet fun e => e.declareAccumulator op start m.stamp.dtype m.span)
    let depth := (← quiet get).frames.length
    openReduction env m op reduced arg
    holding do
      let v ← argument
      quiet (emit (.accumulate acc op v) m.span)
    quiet (modify fun e => e.closeTo depth m.span)
    quiet (value (.loadAccumulator acc m.stamp.dtype) m.span)

mutual
/-- Lowers an expression and logs its queries. -/
def lower (env : Env) : StampedExpr → Logged Reg
  | .constant m v => quiet (value (.constant v m.stamp.dtype) m.span)
  | .input m path => asking (.input m path) (inputValue path m.stamp.dtype m.span)
  | .ref m name => quiet (value (.loadDeclaration name m.stamp.axes m.stamp.dtype) m.span)
  | .call m func args => do
    let args ← lowerAll env args
    quiet (value (.kernelCall func args m.stamp.dtype) m.span)
  | .tuple m elems => do
    let elems ← lowerAll env elems
    quiet (value (.makeTuple elems m.stamp.dtype) m.span)
  | .select m c t f => do
    align env m.stamp.axes (.select m c t f)
    let c ← lower env c
    let t ← lower env t
    let f ← lower env f
    quiet (value (.select c t f m.stamp.dtype) m.span)
  | .reduce m op reduced arg => reduction env m op reduced arg (lower env arg)

def lowerAll (env : Env) : List StampedExpr → Logged (List Reg)
  | [] => pure []
  | e :: es => do
    let r ← lower env e
    return r :: (← lowerAll env es)
end

def lowerBody (env : Env) (body : StampedExpr) : Logged Unit := do
  align env body.axes body
  let v ← lower env body
  quiet (emit (.yield v) body.span)
  quiet (modify fun e => e.closeTo 0 body.span)

theorem quiet_eq_ok {x : Lower α} {st : Emission} {log log' : List Lookup} {r : α × Emission} :
    quiet x st log = (.ok r, log') ↔ x st = .ok r ∧ log = log' :=
  .of_eq (Prod.mk.injEq ..)

theorem asking_eq_ok {q : Query} {x : Lower α} {st : Emission} {log log' : List Lookup}
    {r : α × Emission} :
    asking q x st log = (.ok r, log') ↔ x st = .ok r ∧ log ++ [⟨q, st⟩] = log' :=
  .of_eq (Prod.mk.injEq ..)

/-- What a sequence does: where its first step fails, the log of this step stays. -/
theorem bind_apply (x : Logged α) (f : α → Logged β) (st : Emission) (log : List Lookup) :
    (x >>= f) st log =
      match x st log with
      | (.ok (a, st'), log') => f a st' log'
      | (.error d, log') => (.error d, log') := by
  have hbind : (x >>= f) st log = ExceptT.bindCont (m := StateM (List Lookup))
      (fun p : α × Emission => f p.1 p.2) (x st log).1 (x st log).2 := rfl
  rw [hbind]
  rcases x st log with ⟨_ | ⟨a, st'⟩, log'⟩
  · rfl
  · rfl

theorem bind_eq_ok {x : Logged α} {f : α → Logged β} {st : Emission} {log log' : List Lookup}
    {r : β × Emission} :
    (x >>= f) st log = (.ok r, log') ↔
      ∃ a st₁ log₁, x st log = (.ok (a, st₁), log₁) ∧ f a st₁ log₁ = (.ok r, log') := by
  rw [bind_apply]
  rcases x st log with ⟨d | ⟨a, st₁⟩, log₁⟩
  · constructor
    · intro h
      cases h
    · rintro ⟨_, _, _, hx, -⟩
      cases hx
  · constructor
    · exact fun h => ⟨a, st₁, log₁, rfl, h⟩
    · rintro ⟨_, _, _, hx, h⟩
      cases hx
      exact h

end Logged

/-- All that is looked up while a body is lowered, up to the end or to where it fails. -/
def lookups (env : Env) (body : StampedExpr) : List Lookup :=
  (Logged.lowerBody env body .empty []).2

end Lowering
end LoopNest
