import LoopNest.Code.Basic
import LoopNest.Fault

/-! Validity of loop code: registers and accumulators are defined before they are read, loops nest,
and there is one yield, with nothing after it but the ends of loops. -/
namespace LoopNest

/-- What is in scope between two instructions. The open loops are innermost first. -/
structure Scope where
  regs : List Reg
  accs : List AccId
  loops : List LoopId
  yielded : Bool

namespace Scope

def empty : Scope := ⟨[], [], [], false⟩

/-- What an instruction leaves in scope. -/
def after (s : Scope) (i : Instr) : Scope :=
  let s := { s with regs := i.defs ++ s.regs }
  match i.op with
  | .declareAccumulator acc _ _ _ => { s with accs := acc :: s.accs }
  | .loopStart _ _ _ _ id => { s with loops := id :: s.loops }
  | .loopEnd _ => { s with loops := s.loops.tail }
  | .yield _ => { s with yielded := true }
  | _ => s

/-- Only the ends of loops follow a yield. -/
def orderFault? (s : Scope) (position : Nat) (op : Opcode) : Option Fault :=
  if s.yielded then
    match op with
    | .yield => some (.secondYield position)
    | .loopEnd => none
    | op => some (.afterYield op position)
  else none

/-- All registers that are read are defined. -/
def registerFault? (s : Scope) (op : Op) : Option Fault :=
  (op.inputs.find? fun r => !s.regs.contains r).map fun r => .undefinedRegister r op.opcode

/-- An accumulator is declared before it is used, and a loop ends only as the innermost one. -/
def blockFault? (s : Scope) : Op → Option Fault
  | .accumulate acc _ _ | .loadAccumulator acc _ =>
    if s.accs.contains acc then none else some (.undefinedAccumulator acc)
  | .loopEnd id =>
    match s.loops with
    | [] => some (.strayLoopEnd id)
    | innermost :: _ => if innermost = id then none else some (.wrongLoopEnd id innermost)
  | _ => none

/-- The first rule that an instruction breaks at its position. -/
def fault? (s : Scope) (position : Nat) (i : Instr) : Option Fault :=
  (s.orderFault? position i.op.opcode).or ((s.registerFault? i.op).or (s.blockFault? i.op))

/-- Goes through instructions from a position on. -/
def through (s : Scope) (position : Nat) : List Instr → Except Diagnostic Scope
  | [] => .ok s
  | i :: is =>
    match s.fault? position i with
    | some f => .error (f.diagnose i.location)
    | none => (s.after i).through (position + 1) is

/-- What is wrong with code that ends in this scope. -/
def endFault? (s : Scope) : Option Fault :=
  match s.loops with
  | innermost :: _ => some (.openLoops s.loops.length innermost)
  | [] => if s.yielded then none else some .noYield

end Scope

namespace LoopCode

/-- Where a fault at the end of the code is reported. -/
def lastSpan (instrs : List Instr) : Span := (instrs.getLast?.map Instr.location).getD .zero

def checkInstrs (instrs : List Instr) : Except Diagnostic Unit := do
  let s ← Scope.empty.through 0 instrs
  match s.endFault? with
  | some f => throw (f.diagnose (lastSpan instrs))
  | none => return

/-- Accepts valid code; the first violation is reported. -/
def check (c : LoopCode) : Except Diagnostic Unit :=
  (checkInstrs c.instrs).mapError (·.inDecl c.name)

end LoopCode

def LoopModule.check (m : LoopModule) : Except Diagnostic Unit := m.decls.forM LoopCode.check

end LoopNest
