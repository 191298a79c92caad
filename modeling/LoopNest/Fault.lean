import LoopNest.Code.Basic
import LoopNest.Diagnostic
import LoopNest.Function.Basic

/-! The catalogue of faults that end a compilation, with the code, the message and the hint of
each. -/
namespace LoopNest

inductive Fault where
  /-- Arguments whose axes do not combine. -/
  | broadcastConflict (conflict : Axes.Conflict)
  /-- Branches of a selection whose axes do not combine. -/
  | branchConflict (conflict : Axes.Conflict)
  | maskConflict (mask branches : Axes)
  | unknownInput (path : FieldPath)
  | unknownDeclaration (name : String)
  | unknownFunction (id : String)
  | typeRule (id : String) (fault : RuleFault)
  | conditionType (found : DType)
  | branchTypes (onTrue onFalse : DType)
  | noIdentity (op : String) (dtype : DType)
  | arity (fault : ArityFault)
  | reducerArity (id : String) (got : Nat)
  /-- A node analyzed as a reduction that has not one argument. -/
  | reductionArity (got : Nat)
  | notReducer (op : String) (kind : FunctionKind)
  | traitNotBoolean (name : String) (found : DType)
  | duplicateDeclaration (name : String)
  | duplicateInput (path : FieldPath)
  /-- Two carriers of the same axes, each with the input that it comes from. -/
  | ambiguousCarrier (axes : Axes) (first firstVia second secondVia : FieldPath)
  | pathTooShort (path : FieldPath) (axes : Axes)
  | noCarrier (axes : Axes)
  | emptyPath
  | scalarReduction (op : String)
  | reductionAxes (argument result reduced : Axes)
  | overNotSuffix (reduced argument : Axes)
  | undefinedRegister (reg : Reg) (reader : Opcode)
  | undefinedAccumulator (acc : AccId)
  | wrongLoopEnd (closed innermost : LoopId)
  | strayLoopEnd (closed : LoopId)
  | openLoops (count : Nat) (innermost : LoopId)
  | secondYield (position : Nat)
  | noYield
  | afterYield (opcode : Opcode) (position : Nat)
  /-- A node that the analysis does not cover. -/
  | unanalyzed (node : NodeId)
  /-- A pass without what it starts from. -/
  | missingArtifact (pass what : String)

namespace Fault

def code? : Fault → Option Code
  | .broadcastConflict _ | .branchConflict _ | .maskConflict .. => some .prefixMismatch
  | .unknownInput _ => some .unknownInput
  | .unknownDeclaration _ => some .unknownDeclaration
  | .unknownFunction _ => some .unknownFunction
  | .typeRule .. | .conditionType _ | .branchTypes .. | .noIdentity .. => some .typeRule
  | .arity _ | .reducerArity .. | .reductionArity _ => some .arity
  | .notReducer .. => some .notReducer
  | .traitNotBoolean .. => some .traitNotBoolean
  | .duplicateDeclaration _ => some .duplicateDeclaration
  | .duplicateInput _ => some .duplicateInput
  | .ambiguousCarrier .. => some .ambiguousCarrier
  | .pathTooShort .. => some .missingAnchor
  | .noCarrier _ | .emptyPath => some .missingCarrier
  | .scalarReduction _ => some .scalarReduction
  | .reductionAxes .. | .overNotSuffix .. => some .axesMismatch
  | .undefinedRegister .. | .undefinedAccumulator _ => some .useBeforeDefinition
  | .wrongLoopEnd .. | .strayLoopEnd _ | .openLoops .. => some .unbalancedLoops
  | .secondYield _ => some .multipleYields
  | .noYield => some .noYield
  | .afterYield .. => some .instructionAfterYield
  | .unanalyzed _ | .missingArtifact .. => none

def ticked (s : String) : String := "`" ++ s ++ "`"

def message : Fault → String
  | .broadcastConflict c | .branchConflict c => c.message
  | .maskConflict mask branches =>
    "select mask axes " ++ mask.render ++ " are not a prefix of branch axes " ++ branches.render
  | .unknownInput path => "input " ++ ticked path.render ++ " is not in the input table"
  | .unknownDeclaration name => "reference to " ++ ticked name ++ " before it is analyzed"
  | .unknownFunction id => "unknown function " ++ ticked id
  | .typeRule id fault => ticked id ++ ": " ++ fault.message
  | .conditionType found => "select condition must be boolean, found " ++ found.render
  | .branchTypes onTrue onFalse =>
    "select branches have incompatible types " ++ onTrue.render ++ " and " ++ onFalse.render
  | .noIdentity op dtype => "reducer " ++ ticked op ++ " has no identity value at " ++ dtype.render
  | .arity fault => fault.message
  | .reducerArity id got => "reducer " ++ ticked id ++ " takes 1 argument, got " ++ toString got
  | .reductionArity got => "reducer takes 1 argument, got " ++ toString got
  | .notReducer op kind => ticked op ++ " is a " ++ kind.text ++ " function, not a reducer"
  | .traitNotBoolean name found =>
    "trait " ++ ticked name ++ " must be boolean, found " ++ found.render
  | .duplicateDeclaration name => "declaration " ++ ticked name ++ " is defined twice"
  | .duplicateInput path => "input " ++ ticked path.render ++ " is declared twice"
  | .ambiguousCarrier axes first firstVia second secondVia =>
    "ambiguous carrier for " ++ axes.render ++ ": " ++ ticked first.render ++ " (via " ++
      firstVia.render ++ ") and " ++ ticked second.render ++ " (via " ++ secondVia.render ++ ")"
  | .pathTooShort path axes =>
    "input " ++ ticked path.render ++ " varies over " ++ axes.render ++
      " but its path is too short to carry it"
  | .noCarrier axes => "no input path carries axes " ++ axes.render
  | .emptyPath => "input reference with an empty path"
  | .scalarReduction op => ticked op ++ " reduces a scalar argument"
  | .reductionAxes argument result reduced =>
    "reduction argument axes " ++ argument.render ++ " differ from result axes " ++
      result.render ++ " ++ over " ++ reduced.render
  | .overNotSuffix reduced argument =>
    "cannot reduce over " ++ reduced.render ++ ": not a suffix of argument axes " ++ argument.render
  | .undefinedRegister reg reader =>
    reg.render ++ " read before definition by " ++ ticked reader.text
  | .undefinedAccumulator acc => acc.render ++ " used before declare_accumulator"
  | .wrongLoopEnd closed innermost =>
    "loop_end " ++ closed.render ++ " while " ++ innermost.render ++ " is the innermost open loop"
  | .strayLoopEnd closed => "loop_end " ++ closed.render ++ " with no open loop"
  | .openLoops count innermost =>
    toString count ++ " loop(s) still open at end, innermost " ++ innermost.render
  | .secondYield position => "second yield at instruction " ++ toString position
  | .noYield => "declaration never yields"
  | .afterYield opcode position =>
    ticked opcode.text ++ " after yield at instruction " ++ toString position
  | .unanalyzed node => "node " ++ node.render ++ " has no analysis result"
  | .missingArtifact pass what => pass ++ " pass ran without its " ++ what

def hint? : Fault → Option String
  | .broadcastConflict _ =>
    some "broadcasting only extends a shorter axis vector that is a prefix of the longer one"
  | .unknownDeclaration _ => some "declarations must be listed after everything they reference"
  | .ambiguousCarrier .. => some "load each axis from a single field path"
  | .noCarrier _ => some "reference an input that varies over these axes"
  | .scalarReduction _ => some "the reduced argument must vary over at least one axis"
  | _ => none

/-- The fault as a diagnostic at a position. -/
def diagnose (f : Fault) (span : Span) : Diagnostic :=
  ⟨f.code?, span, f.message, f.hint?, none, [], []⟩

end Fault
end LoopNest
