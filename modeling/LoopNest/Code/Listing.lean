import LoopNest.Code.Basic

/-! Listings of loop code, indented by loop depth. -/
namespace LoopNest

def renderRegs (regs : List Reg) : String := ", ".intercalate (regs.map Reg.render)

def Op.render : Op → String
  | .constant value dtype => "constant " ++ value.render ++ " : " ++ dtype.render
  | .loadInput field => "load_input " ++ field
  | .loadField base field dtype =>
    "load_field " ++ base.render ++ "." ++ field ++
      (match dtype with | some t => " : " ++ t.render | none => "")
  | .loadDeclaration name axes dtype =>
    "load_declaration " ++ name ++ " : " ++ axes.render ++ " " ++ dtype.render
  | .makeTuple elems dtype => "make_tuple(" ++ renderRegs elems ++ ") : " ++ dtype.render
  | .select cond onTrue onFalse dtype =>
    "select(" ++ renderRegs [cond, onTrue, onFalse] ++ ") : " ++ dtype.render
  | .kernelCall func args dtype =>
    "kernel_call " ++ func ++ "(" ++ renderRegs args ++ ") : " ++ dtype.render
  | .declareAccumulator acc op identity dtype =>
    "declare_accumulator " ++ acc.render ++ " " ++ op ++ " = " ++ identity.render ++ " : " ++
      dtype.render
  | .accumulate acc op value => "accumulate " ++ acc.render ++ " " ++ op ++ " " ++ value.render
  | .loadAccumulator acc dtype => "load_accumulator " ++ acc.render ++ " : " ++ dtype.render
  | .loopStart axis collection element index id =>
    "loop_start " ++ id.render ++ " over " ++ collection.render ++ " axis=" ++ axis.name ++
      " el=" ++ element.render ++ " idx=" ++ index.render
  | .loopEnd id => "loop_end " ++ id.render
  | .yield value => "yield " ++ value.render

def Instr.render (i : Instr) : String :=
  (match i.result with | some r => r.render ++ " = " | none => "") ++ i.op.render

/-- The depth at which an instruction is written, after instructions at `depth`. -/
def Op.depthAt (op : Op) (depth : Nat) : Nat :=
  match op with
  | .loopEnd _ => max (depth - 1) 1
  | _ => depth

/-- The depth after an instruction that is written at `depth`. -/
def Op.depthAfter (op : Op) (depth : Nat) : Nat :=
  match op with
  | .loopStart .. => depth + 1
  | _ => depth

/-- The lines of instructions, from a depth on. -/
def listing (depth : Nat) : List Instr → List String
  | [] => []
  | i :: rest =>
    let here := i.op.depthAt depth
    (Json.indentation here ++ i.render ++ "\n") :: listing (i.op.depthAfter here) rest

def LoopCode.render (c : LoopCode) : String :=
  c.kind.text ++ " " ++ c.name ++ " : " ++ c.axes.render ++ " " ++ c.dtype.render ++ "\n" ++
    String.join (listing 1 c.instrs)

def LoopModule.render (m : LoopModule) : String := "\n".intercalate (m.decls.map LoopCode.render)

end LoopNest
