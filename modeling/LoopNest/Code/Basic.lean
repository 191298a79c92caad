import LoopNest.Axes
import LoopNest.Expr

/-! Loop code: for each declaration a flat list of instructions over registers. Loops are explicit
pairs of a start and an end, reductions run through accumulators, and the value of the declaration
leaves through a yield. The loops that are open at a point of the code are its loop context. -/
namespace LoopNest

inductive Opcode where
  | constant
  | loadInput
  | loadField
  | loadDeclaration
  | makeTuple
  | select
  | kernelCall
  | declareAccumulator
  | accumulate
  | loadAccumulator
  | loopStart
  | loopEnd
  | yield
  deriving DecidableEq

def Opcode.text : Opcode → String
  | .constant => "constant"
  | .loadInput => "load_input"
  | .loadField => "load_field"
  | .loadDeclaration => "load_declaration"
  | .makeTuple => "make_tuple"
  | .select => "select"
  | .kernelCall => "kernel_call"
  | .declareAccumulator => "declare_accumulator"
  | .accumulate => "accumulate"
  | .loadAccumulator => "load_accumulator"
  | .loopStart => "loop_start"
  | .loopEnd => "loop_end"
  | .yield => "yield"

/-- An operation with its operands. -/
inductive Op where
  | constant (value : Literal) (dtype : DType)
  /-- A root field of the input record. -/
  | loadInput (field : String)
  /-- A collection on the way to a value has no type. -/
  | loadField (base : Reg) (field : String) (dtype : Option DType)
  | loadDeclaration (name : String) (axes : Axes) (dtype : DType)
  | makeTuple (elems : List Reg) (dtype : DType)
  | select (cond onTrue onFalse : Reg) (dtype : DType)
  | kernelCall (func : String) (args : List Reg) (dtype : DType)
  | declareAccumulator (acc : AccId) (op : String) (identity : Literal) (dtype : DType)
  | accumulate (acc : AccId) (op : String) (value : Reg)
  | loadAccumulator (acc : AccId) (dtype : DType)
  | loopStart (axis : Axis) (collection element index : Reg) (id : LoopId)
  | loopEnd (id : LoopId)
  | yield (value : Reg)
  deriving DecidableEq

namespace Op

def opcode : Op → Opcode
  | .constant .. => .constant
  | .loadInput .. => .loadInput
  | .loadField .. => .loadField
  | .loadDeclaration .. => .loadDeclaration
  | .makeTuple .. => .makeTuple
  | .select .. => .select
  | .kernelCall .. => .kernelCall
  | .declareAccumulator .. => .declareAccumulator
  | .accumulate .. => .accumulate
  | .loadAccumulator .. => .loadAccumulator
  | .loopStart .. => .loopStart
  | .loopEnd .. => .loopEnd
  | .yield .. => .yield

/-- The registers that are read, in the order of the operands. -/
def inputs : Op → List Reg
  | .constant .. | .loadInput .. | .loadDeclaration .. | .declareAccumulator ..
  | .loadAccumulator .. | .loopEnd .. => []
  | .loadField base _ _ => [base]
  | .makeTuple elems _ => elems
  | .select cond onTrue onFalse _ => [cond, onTrue, onFalse]
  | .kernelCall _ args _ => args
  | .accumulate _ _ value => [value]
  | .loopStart _ collection _ _ _ => [collection]
  | .yield value => [value]

/-- Renames the registers that are read. -/
def mapInputs (f : Reg → Reg) : Op → Op
  | .loadField base field dtype => .loadField (f base) field dtype
  | .makeTuple elems dtype => .makeTuple (elems.map f) dtype
  | .select cond onTrue onFalse dtype => .select (f cond) (f onTrue) (f onFalse) dtype
  | .kernelCall func args dtype => .kernelCall func (args.map f) dtype
  | .accumulate acc op value => .accumulate acc op (f value)
  | .loopStart axis collection element index id => .loopStart axis (f collection) element index id
  | .yield value => .yield (f value)
  | op => op

@[simp] theorem inputs_mapInputs (f : Reg → Reg) (op : Op) :
    (op.mapInputs f).inputs = op.inputs.map f := by
  cases op <;> rfl

@[simp] theorem opcode_mapInputs (f : Reg → Reg) (op : Op) :
    (op.mapInputs f).opcode = op.opcode := by
  cases op <;> rfl

/-- The accumulator that is declared, added to or read. -/
def accumulator? : Op → Option AccId
  | .declareAccumulator acc _ _ _ | .accumulate acc _ _ | .loadAccumulator acc _ => some acc
  | _ => none

/-- The element and the index register that a loop introduces. -/
def loopRegisters : Op → List Reg
  | .loopStart _ _ element index _ => [element, index]
  | _ => []

end Op

/-- An instruction: an operation, the register of its result, and where it comes from. -/
structure Instr where
  result : Option Reg
  op : Op
  location : Span
  deriving DecidableEq

/-- The registers that an instruction defines. -/
def Instr.defs (i : Instr) : List Reg := i.result.toList ++ i.op.loopRegisters

/-- The code of one declaration. -/
structure LoopCode where
  name : String
  kind : DeclKind
  axes : Axes
  dtype : DType
  instrs : List Instr
  deriving DecidableEq

/-- The code of a module, declaration by declaration. -/
structure LoopModule where
  decls : List LoopCode
  deriving DecidableEq

namespace LoopModule

def find? (m : LoopModule) (name : String) : Option LoopCode := m.decls.find? (·.name == name)

def instrCount (m : LoopModule) : Nat := m.decls.foldl (fun n c => n + c.instrs.length) 0

end LoopModule

/-- A loop that is open, with the registers of its current element and index. -/
structure OpenLoop where
  axis : Axis
  element : Reg
  index : Reg
  id : LoopId
  deriving DecidableEq

namespace OpenLoop

/-- The open loops after an operation, innermost first. -/
def after (stack : List OpenLoop) : Op → List OpenLoop
  | .loopStart axis _ element index id => ⟨axis, element, index, id⟩ :: stack
  | .loopEnd _ => stack.tail
  | _ => stack

end OpenLoop

def Instr.isYield (i : Instr) : Bool := i.op.opcode == .yield

namespace LoopCode

/-- The loops that are open where the code yields, outermost first. -/
def contextAtYield (c : LoopCode) : List OpenLoop :=
  ((c.instrs.takeWhile fun i => !i.isYield).foldl (fun stack i => OpenLoop.after stack i.op)
    []).reverse

end LoopCode

end LoopNest
