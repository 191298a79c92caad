/-! Scalar type tags, and tuples of them. -/
namespace LoopNest

/-- The type of a value. Tuples arise only as results of constructors. -/
inductive DType where
  | integer
  | float
  | string
  | boolean
  | tuple (elems : List DType)

namespace DType

mutual
def decEq : (a b : DType) → Decidable (a = b)
  | .integer, .integer | .float, .float | .string, .string | .boolean, .boolean => isTrue rfl
  | .tuple as, .tuple bs =>
    match decEqList as bs with
    | isTrue h => isTrue (h ▸ rfl)
    | isFalse h => isFalse fun e => h (tuple.inj e)
  | .integer, .float | .integer, .string | .integer, .boolean | .integer, .tuple _
  | .float, .integer | .float, .string | .float, .boolean | .float, .tuple _
  | .string, .integer | .string, .float | .string, .boolean | .string, .tuple _
  | .boolean, .integer | .boolean, .float | .boolean, .string | .boolean, .tuple _
  | .tuple _, .integer | .tuple _, .float | .tuple _, .string | .tuple _, .boolean =>
    isFalse fun e => nomatch e

def decEqList : (as bs : List DType) → Decidable (as = bs)
  | [], [] => isTrue rfl
  | [], _ :: _ | _ :: _, [] => isFalse fun e => nomatch e
  | a :: as, b :: bs =>
    match decEq a b, decEqList as bs with
    | isTrue h, isTrue hs => isTrue (h ▸ hs ▸ rfl)
    | isFalse h, _ => isFalse fun e => h (List.cons.inj e).1
    | _, isFalse hs => isFalse fun e => hs (List.cons.inj e).2
end

instance : DecidableEq DType := decEq

/-- The scalar type of that name. -/
def ofName? : String → Option DType
  | "integer" => some .integer
  | "float" => some .float
  | "string" => some .string
  | "boolean" => some .boolean
  | _ => none

def isNumeric : DType → Bool
  | .integer | .float => true
  | _ => false

/-- The common type of two: equal types unify, two numbers meet in `float`. -/
def promote? (a b : DType) : Option DType :=
  if a = b then some a
  else if a.isNumeric && b.isNumeric then some .float
  else none

mutual
/-- The written form; a tuple is written `(float, integer)`. -/
def render : DType → String
  | .integer => "integer"
  | .float => "float"
  | .string => "string"
  | .boolean => "boolean"
  | .tuple elems => "(" ++ ", ".intercalate (renderAll elems) ++ ")"

def renderAll : List DType → List String
  | [] => []
  | t :: ts => t.render :: renderAll ts
end

@[simp] theorem promote?_self (a : DType) : promote? a a = some a := by simp [promote?]

theorem promote?_comm (a b : DType) : promote? a b = promote? b a := by
  unfold promote?
  by_cases h : a = b
  · simp [h]
  · simp [h, Ne.symm h, Bool.and_comm]

end DType
end LoopNest
