import LoopNest.Function.Basic

/-! Functions as JSON values. Enumerated values may also be written as an object with one field
whose value is `null`; a record may also be written as the list of its fields. -/
namespace LoopNest

namespace DType

mutual
def toJson : DType → Json
  | .integer => .text "integer"
  | .float => .text "float"
  | .string => .text "string"
  | .boolean => .text "boolean"
  | .tuple elems => .record [("tuple", .array (toJsonAll elems))]

def toJsonAll : List DType → List Json
  | [] => []
  | t :: ts => t.toJson :: toJsonAll ts
end

end DType

namespace Json

/-- The name of an enumerated value. -/
def enumName? : Json → Option String
  | .string s => s
  | .object [(key, .null)] => key
  | _ => none

def asText? : Json → Option String
  | .string s => s
  | _ => none

def boolean? : Json → Option Bool
  | .boolean b => some b
  | _ => none

def strings? : Json → Option (List String)
  | .array items => items.mapM asText?
  | _ => none

/-- The value of a field, `none` where it is missing. -/
def find (fields : List (Option String × Json)) (key : String) : Option Json :=
  (fields.find? (·.1 == some key)).map Prod.snd

/-- Whether every key is a text and none of the `known` keys stands twice. -/
def wellKeyed (known : List String) (fields : List (Option String × Json)) : Bool :=
  fields.all (·.1.isSome) && known.all fun k => (fields.filter (·.1 == some k)).length ≤ 1

end Json

/-- A type. At most `room` brackets may open inside each other. -/
def DType.ofJson? : Nat → Json → Option DType
  | room + 2, .object [(some "tuple", .array items)] =>
    (items.mapM (DType.ofJson? room)).map .tuple
  | 0, .object _ => none
  | _, j => j.enumName?.bind DType.ofName?

namespace FunctionKind

def ofText? : String → Option FunctionKind
  | "elementwise" => some .elementwise
  | "reduce" => some .reduce
  | "constructor" => some .constructor
  | _ => none

def ofJson? (j : Json) : Option FunctionKind := j.enumName?.bind ofText?

end FunctionKind

namespace Identity

def ofText? : String → Option Identity
  | "zero" => some .zero
  | "one" => some .one
  | "neg_infinity" => some .negInfinity
  | "pos_infinity" => some .posInfinity
  | "true" => some .true
  | "false" => some .false
  | _ => none

/-- An identity or `null` for none. -/
def ofJson? : Json → Option (Option Identity)
  | .null => some none
  | j => (j.enumName?.bind ofText?).map some

end Identity

namespace TypeRule

def toJson : TypeRule → Json
  | .same param => .record [("same", .text param)]
  | .fixed t => .record [("fixed", t.toJson)]
  | .promote => .text "promote"
  | .tupleOf => .text "tuple_of"

def ofName? : String → Option TypeRule
  | "promote" => some .promote
  | "tuple_of" => some .tupleOf
  | _ => none

/-- A rule whose own bracket and those inside it may be `room` deep. -/
def ofJson? (room : Nat) : Json → Option TypeRule
  | .object [(some "same", .string (some param))] => some (.same param)
  | .object [(some "fixed", t)] => (DType.ofJson? (room - 1) t).map .fixed
  | j => j.enumName?.bind ofName?

end TypeRule

namespace Signature

/-- The fields in order; a missing identity has none. -/
def toJson (f : Signature) : Json :=
  .record ([("id", .text f.id), ("kind", .text f.kind.text),
    ("params", .array (f.params.map .text)), ("variadic", .boolean f.variadic),
    ("dtype_rule", f.rule.toJson)] ++
    match f.identity with
    | some i => [("identity", .text i.text)]
    | none => [])

def fieldNames : List String := ["id", "kind", "params", "variadic", "dtype_rule", "identity"]

/-- A function from the values of its fields. Only `variadic` and `identity` may be missing. -/
def ofFields? (room : Nat) (id kind params variadic rule identity : Option Json) :
    Option Signature := do
  let id ← (← id).asText?
  let kind ← FunctionKind.ofJson? (← kind)
  let params ← (← params).strings?
  let variadic ← match variadic with
    | some j => j.boolean?
    | none => some false
  let rule ← TypeRule.ofJson? room (← rule)
  let identity ← match identity with
    | some j => Identity.ofJson? j
    | none => some none
  some ⟨id, kind, params, variadic, rule, identity⟩

/-- A function as a record or as a list. -/
def ofJson? (room : Nat) : Json → Option Signature
  | .object fields =>
    if Json.wellKeyed fieldNames fields then
      let get := Json.find fields
      ofFields? room (get "id") (get "kind") (get "params") (get "variadic") (get "dtype_rule")
        (get "identity")
    else none
  | .array [id, kind, params, variadic, rule] =>
    ofFields? room (some id) (some kind) (some params) (some variadic) (some rule) none
  | .array [id, kind, params, variadic, rule, identity] =>
    ofFields? room (some id) (some kind) (some params) (some variadic) (some rule) (some identity)
  | _ => none

end Signature

/-- The functions of a manifest. -/
abbrev Manifest := List Signature

namespace Manifest

/-- How many brackets may open inside each other. -/
def depthLimit : Nat := 127

def functions? : Json → Option Manifest
  | .array items => items.mapM (Signature.ofJson? (depthLimit - 3))
  | _ => none

/-- A manifest as a record or as a list. -/
def ofJson? : Json → Option Manifest
  | .object fields =>
    if Json.wellKeyed ["functions"] fields then
      (Json.find fields "functions").bind functions?
    else none
  | .array [fs] => functions? fs
  | _ => none

end Manifest
end LoopNest
