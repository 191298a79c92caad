import LoopNest.Text.Order

/-! Axis vectors: the loop dimensions a value varies over, outermost first. Vectors combine only
along the prefix order, so broadcasting never reorders or invents an axis. Field paths: a root field
followed by nested keys. -/
namespace LoopNest

/-- A named loop dimension, one level of array nesting in the data. -/
structure Axis where
  name : String
  deriving DecidableEq

/-- An ordered axis vector; the empty vector is that of a scalar. -/
abbrev Axes := List Axis

namespace Axes

def ofNames (names : List String) : Axes := names.map Axis.mk

def names (a : Axes) : List String := a.map Axis.name

@[simp] theorem names_ofNames (l : List String) : (ofNames l).names = l := by
  simp [ofNames, names, Function.comp_def]

@[simp] theorem ofNames_names (a : Axes) : ofNames a.names = a := by
  simp [ofNames, names, Function.comp_def]

/-- The written form `[a, b]`. -/
def render (a : Axes) : String := "[" ++ ", ".intercalate a.names ++ "]"

/-- The number of leading positions where both vectors name the same axis. -/
def commonLength : Axes → Axes → Nat
  | x :: xs, y :: ys => if x = y then commonLength xs ys + 1 else 0
  | _, _ => 0

/-- The vector without `tail` at its end, if it ends so. -/
def dropTail? (a tail : Axes) : Option Axes :=
  let split := a.length - tail.length
  if tail.length ≤ a.length ∧ a.drop split = tail then some (a.take split) else none

/-- The vector without its innermost axis, and that axis. -/
def splitLast (a : Axes) : Axes × Option Axis := (a.dropLast, a.getLast?)

/-- The longest of the vectors, the first of them where several are longest. -/
def longest : List Axes → Axes
  | [] => []
  | a :: rest =>
    let best := longest rest
    if a.length < best.length then best else a

/-- Two vectors that do not combine: `other` is no prefix of the `candidate`. -/
structure Conflict where
  candidate : Axes
  other : Axes
  deriving DecidableEq

def Conflict.message (c : Conflict) : String :=
  "axis vectors " ++ c.other.render ++ " and " ++ c.candidate.render ++ " are not prefix-related"

/-- The least upper bound in the prefix order: the longest vector, if every vector is a prefix
of it; otherwise the first vector that is not. -/
def lub (vectors : List Axes) : Except Conflict Axes :=
  let candidate := longest vectors
  match vectors.find? (fun v => !v.isPrefixOf candidate) with
  | some other => .error ⟨candidate, other⟩
  | none => .ok candidate

@[simp] theorem lub_nil : lub [] = .ok [] := rfl

@[simp] theorem lub_singleton (a : Axes) : lub [a] = .ok a := by
  simp [lub, longest]

/-- Order by the names of the axes, outermost first; a proper prefix comes first. -/
def compare (a b : Axes) : Ordering := Text.compareLists a.names b.names

instance : Std.TransCmp compare where
  eq_swap {a b} := @Std.OrientedCmp.eq_swap _ Text.compareLists _ a.names b.names
  isLE_trans {a b c} := @Std.TransCmp.isLE_trans _ Text.compareLists _ a.names b.names c.names

instance : Std.LawfulEqCmp compare where
  compare_self {a} := @Std.ReflCmp.compare_self _ Text.compareLists _ a.names
  eq_of_compare {a b} h := by
    rw [← ofNames_names a, ← ofNames_names b,
      @Std.LawfulEqCmp.eq_of_compare _ Text.compareLists _ _ _ h]

end Axes

/-- The keys that lead from the input record to a field, root first. -/
abbrev FieldPath := List String

namespace FieldPath

/-- The written form `orders.lines.qty`. -/
def render (p : FieldPath) : String := ".".intercalate p

def root? (p : FieldPath) : Option String := p.head?

/-- Whether `other` leads to `p` or to a record that holds it. -/
def startsWith (p other : FieldPath) : Bool := other.isPrefixOf p

theorem startsWith_iff (p other : FieldPath) : p.startsWith other = true ↔ other <+: p := by
  simp [startsWith]

/-- The keys between the dots of a written path. -/
def ofText (text : String) : FieldPath := text.splitOn "."

/-- Order by keys, root first; a proper prefix comes first. -/
def compare (p q : FieldPath) : Ordering := Text.compareLists p q

instance : Std.TransCmp compare := inferInstanceAs (Std.TransCmp Text.compareLists)

instance : Std.LawfulEqCmp compare := inferInstanceAs (Std.LawfulEqCmp Text.compareLists)

end FieldPath

end LoopNest
