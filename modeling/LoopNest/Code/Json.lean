import LoopNest.Code.Basic
import LoopNest.Function.Json

/-! Loop code as JSON values. -/
namespace LoopNest

def Reg.toJson (r : Reg) : Json := .nat r.index

def Axes.toJson (a : Axes) : Json := .array (a.names.map .text)

def Span.toJson (s : Span) : Json := .array [.nat s.start, .nat s.stop]

/-- The operands of an operation, in order. -/
def Op.jsonFields : Op → List (String × Json)
  | .constant value dtype => [("value", value.toJson), ("dtype", dtype.toJson)]
  | .loadInput field => [("field", .text field)]
  | .loadField base field dtype =>
    [("base", base.toJson), ("field", .text field), ("dtype", .optional DType.toJson dtype)]
  | .loadDeclaration name axes dtype =>
    [("name", .text name), ("axes", axes.toJson), ("dtype", dtype.toJson)]
  | .makeTuple elems dtype => [("elems", .array (elems.map Reg.toJson)), ("dtype", dtype.toJson)]
  | .select cond onTrue onFalse dtype =>
    [("cond", cond.toJson), ("on_true", onTrue.toJson), ("on_false", onFalse.toJson),
      ("dtype", dtype.toJson)]
  | .kernelCall func args dtype =>
    [("func", .text func), ("args", .array (args.map Reg.toJson)), ("dtype", dtype.toJson)]
  | .declareAccumulator acc op identity dtype =>
    [("acc", .nat acc.index), ("op", .text op), ("identity", identity.toJson),
      ("dtype", dtype.toJson)]
  | .accumulate acc op value => [("acc", .nat acc.index), ("op", .text op), ("value", value.toJson)]
  | .loadAccumulator acc dtype => [("acc", .nat acc.index), ("dtype", dtype.toJson)]
  | .loopStart axis collection element index id =>
    [("axis", .text axis.name), ("collection", collection.toJson), ("as_element", element.toJson),
      ("as_index", index.toJson), ("id", .nat id.index)]
  | .loopEnd id => [("id", .nat id.index)]
  | .yield value => [("value", value.toJson)]

def Instr.toJson (i : Instr) : Json :=
  .record ((match i.result with | some r => [("result", r.toJson)] | none => []) ++
    ("opcode", .text i.op.opcode.text) :: i.op.jsonFields ++ [("location", i.location.toJson)])

def LoopCode.toJson (c : LoopCode) : Json :=
  .record [("name", .text c.name), ("kind", .text c.kind.text), ("axes", c.axes.toJson),
    ("dtype", c.dtype.toJson), ("instrs", .array (c.instrs.map Instr.toJson))]

def LoopModule.toJson (m : LoopModule) : Json :=
  .record [("decls", .array (m.decls.map LoopCode.toJson))]

end LoopNest
