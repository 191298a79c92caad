import LoopNest.DType
import LoopNest.Double.Layout
import LoopNest.Json.Basic
import LoopNest.Text.Printable

/-! Constants. -/
namespace LoopNest

inductive Literal where
  | integer (value : Int64)
  | float (value : Double)
  | string (value : String)
  | boolean (value : Bool)
  deriving DecidableEq

namespace Literal

def dtype : Literal → DType
  | .integer _ => .integer
  | .float _ => .float
  | .string _ => .string
  | .boolean _ => .boolean

def renderBool (b : Bool) : String := if b then "true" else "false"

/-- The form in listings. -/
def render : Literal → String
  | .integer n => toString n.toInt
  | .float x => x.render
  | .string s => Text.quote s
  | .boolean b => renderBool b

/-- The JSON value; a number that is not finite has none and becomes `null`. -/
def toJson : Literal → Json
  | .integer n => .int n.toInt
  | .float x => Json.optional .number x.renderInterchange?
  | .string s => .text s
  | .boolean b => .boolean b

end Literal
end LoopNest
