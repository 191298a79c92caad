/-! Source positions, and diagnostics: what is reported to the user. Every diagnostic is fatal for
its module. -/
namespace LoopNest

/-- A range of byte offsets into the source text, the end not included. -/
structure Span where
  start : Nat
  stop : Nat
  deriving DecidableEq, Inhabited

namespace Span

/-- The position of what stands in no source. -/
def zero : Span := ⟨0, 0⟩

/-- The empty range at one position. -/
def empty (offset : Nat) : Span := ⟨offset, offset⟩

/-- From the start of the first range to the end of the second. -/
def upTo (a b : Span) : Span := ⟨a.start, b.stop⟩

end Span

/-- A stable code, one for each kind of error. -/
inductive Code where
  | prefixMismatch
  | unknownInput
  | unknownDeclaration
  | unknownFunction
  | typeRule
  | arity
  | notReducer
  | traitNotBoolean
  | duplicateDeclaration
  | duplicateInput
  | ambiguousCarrier
  | missingAnchor
  | missingCarrier
  | scalarReduction
  | axesMismatch
  | useBeforeDefinition
  | unbalancedLoops
  | multipleYields
  | noYield
  | instructionAfterYield
  deriving DecidableEq

namespace Code

def text : Code → String
  | .prefixMismatch => "E0101"
  | .unknownInput => "E0102"
  | .unknownDeclaration => "E0103"
  | .unknownFunction => "E0104"
  | .typeRule => "E0105"
  | .arity => "E0106"
  | .notReducer => "E0107"
  | .traitNotBoolean => "E0108"
  | .duplicateDeclaration => "E0109"
  | .duplicateInput => "E0110"
  | .ambiguousCarrier => "E0201"
  | .missingAnchor => "E0301"
  | .missingCarrier => "E0302"
  | .scalarReduction => "E0303"
  | .axesMismatch => "E0304"
  | .useBeforeDefinition => "E0401"
  | .unbalancedLoops => "E0402"
  | .multipleYields => "E0403"
  | .noYield => "E0404"
  | .instructionAfterYield => "E0405"

def all : List Code :=
  [.prefixMismatch, .unknownInput, .unknownDeclaration, .unknownFunction, .typeRule, .arity,
    .notReducer, .traitNotBoolean, .duplicateDeclaration, .duplicateInput, .ambiguousCarrier,
    .missingAnchor, .missingCarrier, .scalarReduction, .axesMismatch, .useBeforeDefinition,
    .unbalancedLoops, .multipleYields, .noYield, .instructionAfterYield]

def ofText? (s : String) : Option Code := all.find? (·.text == s)

theorem mem_all (c : Code) : c ∈ all := by cases c <;> decide

theorem ofText?_text (c : Code) : ofText? c.text = some c := by cases c <;> decide

end Code

/-- A secondary source position with a word of context. -/
structure Related where
  span : Span
  label : String
  deriving DecidableEq

/-- One link of the chain that explains a failure. -/
structure Cause where
  message : String
  span : Option Span
  deriving DecidableEq

structure Diagnostic where
  code : Option Code
  span : Span
  message : String
  hint : Option String
  /-- The declaration at work when the error arose. -/
  decl : Option String
  related : List Related
  causes : List Cause
  deriving DecidableEq

namespace Diagnostic

/-- A message at a position and nothing else. -/
def plain (span : Span) (message : String) : Diagnostic :=
  ⟨none, span, message, none, none, [], []⟩

def withCode (d : Diagnostic) (code : Code) : Diagnostic := { d with code := some code }

def withHint (d : Diagnostic) (hint : String) : Diagnostic := { d with hint := some hint }

def withRelated (d : Diagnostic) (span : Span) (label : String) : Diagnostic :=
  { d with related := d.related ++ [⟨span, label⟩] }

def withCause (d : Diagnostic) (message : String) (span : Option Span) : Diagnostic :=
  { d with causes := d.causes ++ [⟨message, span⟩] }

/-- Records the enclosing declaration; the innermost one, recorded first, stays. -/
def inDecl (d : Diagnostic) (name : String) : Diagnostic :=
  { d with decl := d.decl.or (some name) }

def heading (d : Diagnostic) : String :=
  match d.code with
  | some code => "error[" ++ code.text ++ "]: " ++ d.message
  | none => "error: " ++ d.message

def render (d : Diagnostic) : String :=
  d.heading
    ++ (match d.decl with | some name => " (in `" ++ name ++ "`)" | none => "")
    ++ String.join (d.causes.map fun c => "\n  note: " ++ c.message)
    ++ (match d.hint with | some hint => "\n  hint: " ++ hint | none => "")

end Diagnostic
end LoopNest
