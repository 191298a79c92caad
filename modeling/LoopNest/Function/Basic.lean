import LoopNest.Literal

/-! Functions: their kind, parameters, type rule, and the identity of a reducer. -/
namespace LoopNest

inductive FunctionKind where
  | elementwise
  | reduce
  | constructor
  deriving DecidableEq

def FunctionKind.text : FunctionKind → String
  | .elementwise => "elementwise"
  | .reduce => "reduce"
  | .constructor => "constructor"

/-- The result type of a function from the types of its arguments. -/
inductive TypeRule where
  /-- The type of the named parameter; in a variadic list all elements have to agree. -/
  | same (param : String)
  | fixed (dtype : DType)
  /-- The common numeric type of all arguments. -/
  | promote
  /-- The tuple of all argument types, in order. -/
  | tupleOf
  deriving DecidableEq

/-- The value that a reduction starts from, at whatever type its result has. -/
inductive Identity where
  | zero
  | one
  | negInfinity
  | posInfinity
  | true
  | false
  deriving DecidableEq

namespace Identity

def text : Identity → String
  | .zero => "zero"
  | .one => "one"
  | .negInfinity => "neg_infinity"
  | .posInfinity => "pos_infinity"
  | .true => "true"
  | .false => "false"

/-- The identity as a constant of that type. The infinities of the integers are their bounds. -/
def literal? : Identity → DType → Option Literal
  | .zero, .integer => some (.integer 0)
  | .zero, .float => some (.float (.zero Bool.false))
  | .one, .integer => some (.integer 1)
  | .one, .float => some (.float .one)
  | .negInfinity, .integer => some (.integer Int64.minValue)
  | .negInfinity, .float => some (.float (.infinity Bool.true))
  | .posInfinity, .integer => some (.integer Int64.maxValue)
  | .posInfinity, .float => some (.float (.infinity Bool.false))
  | .true, .boolean => some (.boolean Bool.true)
  | .false, .boolean => some (.boolean Bool.false)
  | _, _ => none

theorem dtype_of_literal? {i : Identity} {t : DType} {l : Literal} (h : i.literal? t = some l) :
    l.dtype = t := by
  unfold literal? at h
  split at h <;> simp_all <;> subst h <;> rfl

end Identity

/-- Argument types under the names of parameters. -/
inductive NamedTypes where
  | named (pairs : List (String × DType))
  /-- All arguments under one name. -/
  | variadic (name : String) (types : List DType)

def NamedTypes.types : NamedTypes → List DType
  | .named pairs => pairs.map Prod.snd
  | .variadic _ types => types

/-- Why a type rule refuses its arguments. -/
inductive RuleFault where
  | noParameter (name : String)
  | emptyList (name : String)
  | mixedList (name : String) (first other : DType)
  | notNumeric (found : DType)
  | noArguments
  deriving DecidableEq

def RuleFault.message : RuleFault → String
  | .noParameter name => "no parameter named `" ++ name ++ "`"
  | .emptyList name => "`" ++ name ++ "` is empty"
  | .mixedList name first other =>
    "`" ++ name ++ "` mixes " ++ first.render ++ " and " ++ other.render
  | .notNumeric found => "cannot promote non-numeric " ++ found.render
  | .noArguments => "no arguments to promote"

namespace TypeRule

/-- The common type of numbers, given that of those before. -/
def promoteFrom (acc : DType) : List DType → Except RuleFault DType
  | [] => .ok acc
  | t :: ts =>
    if t.isNumeric then promoteFrom ((acc.promote? t).getD t) ts else .error (.notNumeric t)

def promoteAll : List DType → Except RuleFault DType
  | [] => .error .noArguments
  | t :: ts => if t.isNumeric then promoteFrom t ts else .error (.notNumeric t)

/-- The one type of a list under a name. -/
def uniform (name : String) : List DType → Except RuleFault DType
  | [] => .error (.emptyList name)
  | first :: rest =>
    match rest.find? (· != first) with
    | some other => .error (.mixedList name first other)
    | none => .ok first

def apply (rule : TypeRule) (args : NamedTypes) : Except RuleFault DType :=
  match rule with
  | .fixed t => .ok t
  | .promote => promoteAll args.types
  | .tupleOf => .ok (.tuple args.types)
  | .same param =>
    match args with
    | .named pairs =>
      match pairs.find? (·.1 == param) with
      | some (_, t) => .ok t
      | none => .error (.noParameter param)
    | .variadic name types =>
      if name = param then uniform name types else .error (.noParameter param)

end TypeRule

/-- What is known of a function: its parameters by name, its type rule, and for a reducer the value
that it starts from. -/
structure Signature where
  id : String
  kind : FunctionKind
  params : List String
  variadic : Bool
  rule : TypeRule
  identity : Option Identity
  deriving DecidableEq

/-- A call with a wrong number of arguments. -/
structure ArityFault where
  id : String
  expected : Nat
  got : Nat
  deriving DecidableEq

def ArityFault.message (f : ArityFault) : String :=
  "`" ++ f.id ++ "` takes " ++ toString f.expected ++ " argument(s), got " ++ toString f.got

/-- Names the argument types after the parameters. A variadic function collects them under its
first parameter. -/
def Signature.nameTypes (f : Signature) (types : List DType) : Except ArityFault NamedTypes :=
  if f.variadic then .ok (.variadic (f.params.head?.getD "args") types)
  else if types.length = f.params.length then .ok (.named (f.params.zip types))
  else .error ⟨f.id, f.params.length, types.length⟩

end LoopNest
