/-! The passes of the compiler, what each needs, and what it leaves. -/
namespace LoopNest

inductive Pass where
  | analyze
  | stamp
  | carriers
  | lower
  | verify
  | inline
  deriving DecidableEq

/-- The results that passes leave for others. -/
inductive Artifact where
  | analysis
  | stamped
  | carriers
  | code
  | inlined
  deriving DecidableEq

def Artifact.text : Artifact → String
  | .analysis => "analysis"
  | .stamped => "stamped"
  | .carriers => "carriers"
  | .code => "lir"
  | .inlined => "inlined"

namespace Pass

def all : List Pass := [.analyze, .stamp, .carriers, .lower, .verify, .inline]

def name : Pass → String
  | .analyze => "analyze"
  | .stamp => "stamp"
  | .carriers => "carriers"
  | .lower => "lower"
  | .verify => "verify"
  | .inline => "inline"

def ofName? (text : String) : Option Pass := all.find? fun p => p.name == text

theorem ofName?_name (p : Pass) : ofName? p.name = some p := by
  cases p <;> rfl

/-- The passes whose results a pass needs. -/
def inputs : Pass → List Pass
  | .analyze => []
  | .stamp => [.analyze]
  | .carriers => [.stamp]
  | .lower => [.stamp, .carriers]
  | .verify => [.lower]
  | .inline => [.verify]

def outputs : Pass → List Artifact
  | .analyze => [.analysis]
  | .stamp => [.stamped]
  | .carriers => [.carriers]
  | .lower => [.code]
  | .verify => []
  | .inline => [.inlined]

/-- What holds of the result. -/
def invariants : Pass → String
  | .analyze => "every node has axes and dtype; callee decls analyzed first"
  | .stamp => "every node stamped, reducer calls canonicalized to reduce"
  | .carriers => "one carrier per observed axis vector"
  | .lower => "one instruction list per declaration, single yield"
  | .verify => "def-before-use, balanced loops, one trailing yield"
  | .inline => "matching call sites spliced; result re-verified"

/-- Adds a pass behind all that it needs, to a depth that no chain of passes exceeds. -/
def gather : Nat → List Pass → Pass → List Pass
  | 0, order, _ => order
  | depth + 1, order, p =>
    if order.contains p then order else p.inputs.foldl (gather depth) order ++ [p]

/-- The passes that lead to a pass, each behind those that it needs. -/
def required (terminal : Pass) : List Pass := gather all.length [] terminal

theorem required_inline : required .inline = all := by decide

theorem self_mem_required (p : Pass) : p ∈ p.required := by
  cases p <;> decide

/-- The order of passes is closed under need. -/
theorem inputs_subset_required (p q : Pass) (h : q ∈ p.required) : q.inputs ⊆ p.required := by
  revert h
  cases p <;> cases q <;> decide

end Pass
end LoopNest
