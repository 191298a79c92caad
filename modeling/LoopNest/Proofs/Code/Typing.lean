import LoopNest.Proofs.Code.Following
import LoopNest.Proofs.Code.Names
import LoopNest.Proofs.Stamp.Typing

/-! The types of loop code. A register has the type that is written on the instruction of its
definition. One without a written type stands for a field of the input, and has the type that is
declared for it. -/
namespace LoopNest

/-- The type that is written on an operation, that of its result. -/
def Op.dtype? : Op → Option DType
  | .constant _ dtype | .loadDeclaration _ _ dtype | .makeTuple _ dtype | .select _ _ _ dtype
  | .kernelCall _ _ dtype | .loadAccumulator _ dtype => some dtype
  | .loadField _ _ dtype => dtype
  | .loadInput _ | .declareAccumulator .. | .accumulate .. | .loopStart .. | .loopEnd _
  | .yield _ => none

/-- The type of the result of a function, by name. -/
def Registry.resultType? (registry : Registry) (func : String) (types : List DType) :
    Option DType :=
  (registry.find? func).bind fun f => f.resultType? types

/-- The axes and the type of a declaration, by name. -/
def LoopModule.signature? (m : LoopModule) (name : String) : Option (Axes × DType) :=
  (m.find? name).map fun d => (d.axes, d.dtype)

namespace LoopCode

/-- The type that is declared for the field of a register. -/
def inputType? (inputs : InputTable) (c : LoopCode) (r : Reg) : Option DType :=
  ((c.path? r).bind inputs.find?).map InputEntry.dtype

/-- The instruction that defines a register. -/
def definition? (c : LoopCode) (r : Reg) : Option Instr :=
  c.instrs.find? fun i => decide (r ∈ i.defs)

/-- The type of a register. -/
def dtype? (inputs : InputTable) (c : LoopCode) (r : Reg) : Option DType :=
  (c.definition? r).bind fun i => i.op.dtype?.or (c.inputType? inputs r)

/-- The types of registers, if all of them have one. -/
def dtypes? (inputs : InputTable) (c : LoopCode) (rs : List Reg) : Option (List DType) :=
  rs.mapM (c.dtype? inputs)

/-- The operation and the type of an accumulator. -/
def accumulator? (c : LoopCode) (acc : AccId) : Option (String × DType) :=
  c.instrs.findSome? fun i =>
    match i.op with
    | .declareAccumulator acc' op _ dtype => if acc' = acc then some (op, dtype) else none
    | _ => none

end LoopCode

/-- What is written on an instruction agrees with the types of what it reads. -/
def Instr.WellTyped (inputs : InputTable) (registry : Registry) (m : LoopModule) (c : LoopCode)
    (i : Instr) : Prop :=
  match i.op with
  | .constant value dtype => value.dtype = dtype
  | .loadField _ _ (some dtype) => i.result.bind (c.inputType? inputs) = some dtype
  | .loadDeclaration name axes dtype => m.signature? name = some (axes, dtype)
  | .makeTuple elems dtype => (c.dtypes? inputs elems).map .tuple = some dtype
  | .select cond onTrue onFalse dtype =>
    c.dtype? inputs cond = some .boolean ∧
      ∃ t f, c.dtype? inputs onTrue = some t ∧ c.dtype? inputs onFalse = some f ∧
        t.promote? f = some dtype
  | .kernelCall func args dtype =>
    (c.dtypes? inputs args).bind (registry.resultType? func) = some dtype
  | .declareAccumulator _ _ identity dtype => identity.dtype = dtype
  | .accumulate acc op value =>
    ∃ dtype, c.accumulator? acc = some (op, dtype) ∧
      (c.dtypes? inputs [value]).bind (registry.resultType? op) = some dtype
  | .loadAccumulator acc dtype => ∃ op, c.accumulator? acc = some (op, dtype)
  | .yield value => c.dtype? inputs value = some c.dtype
  | .loadInput _ | .loadField _ _ none | .loopStart .. | .loopEnd _ => True

def LoopModule.WellTyped (inputs : InputTable) (registry : Registry) (m : LoopModule) : Prop :=
  ∀ c ∈ m.decls, ∀ i ∈ c.instrs, i.WellTyped inputs registry m c

namespace LoopCode

variable {c : LoopCode} {inputs : InputTable}

/-- Each register has one definition. -/
theorem definition?_eq (h : (c.instrs.flatMap Instr.defs).Nodup) {i : Instr} (hi : i ∈ c.instrs)
    {r : Reg} (hr : r ∈ i.defs) : c.definition? r = some i := by
  obtain ⟨pre, post, hsplit⟩ := List.append_of_mem hi
  rw [hsplit, List.flatMap_append] at h
  have hpre : ∀ j ∈ pre, ¬decide (r ∈ j.defs) = true := by
    intro j hj hmem
    have hlater : r ∈ (i :: post).flatMap Instr.defs :=
      List.mem_flatMap.2 ⟨i, List.mem_cons_self, hr⟩
    exact (List.nodup_append.1 h).2.2 r (List.mem_flatMap.2 ⟨j, hj, of_decide_eq_true hmem⟩) r
      hlater rfl
  rw [definition?, hsplit, List.find?_append, List.find?_eq_none.2 hpre, Option.none_or]
  exact List.find?_cons_of_pos (decide_eq_true hr)

/-- A register has the type that is written on its definition. -/
theorem dtype?_of_written (h : (c.instrs.flatMap Instr.defs).Nodup) {i : Instr} (hi : i ∈ c.instrs)
    {r : Reg} (hr : r ∈ i.defs) {t : DType} (ht : i.op.dtype? = some t) :
    c.dtype? inputs r = some t := by
  rw [dtype?, definition?_eq h hi hr, Option.bind_some, ht]
  rfl

/-- A register without a written type has the type of its field. -/
theorem dtype?_of_unwritten (h : (c.instrs.flatMap Instr.defs).Nodup) {i : Instr}
    (hi : i ∈ c.instrs) {r : Reg} (hr : r ∈ i.defs) (ht : i.op.dtype? = none) :
    c.dtype? inputs r = c.inputType? inputs r := by
  rw [dtype?, definition?_eq h hi hr, Option.bind_some, ht]
  rfl

theorem inputType?_of_path {r : Reg} {path : FieldPath} (h : c.path? r = some path) :
    c.inputType? inputs r = (inputs.find? path).map InputEntry.dtype := by
  rw [inputType?, h, Option.bind_some]

/-- Each accumulator has one declaration. -/
theorem accumulator?_eq (h : (c.instrs.flatMap Instr.declares).Nodup) {result : Option Reg}
    {acc : AccId} {op : String} {identity : Literal} {dtype : DType} {span : Span}
    (hi : ⟨result, .declareAccumulator acc op identity dtype, span⟩ ∈ c.instrs) :
    c.accumulator? acc = some (op, dtype) := by
  obtain ⟨pre, post, hsplit⟩ := List.append_of_mem hi
  rw [hsplit, List.flatMap_append] at h
  rw [accumulator?, hsplit, List.findSome?_append, List.findSome?_cons]
  simp only [if_true]
  refine Option.or_eq_some_iff.2 (.inr ⟨List.findSome?_eq_none_iff.2 fun j hj => ?_, rfl⟩)
  obtain ⟨result', op', span'⟩ := j
  cases op' with
  | declareAccumulator acc' =>
    refine if_neg fun heq => (List.nodup_append.1 h).2.2 acc ?_ acc ?_ rfl
    · exact List.mem_flatMap.2 ⟨_, hj, List.mem_singleton.2 heq.symm⟩
    · exact List.mem_flatMap.2 ⟨_, List.mem_cons_self, List.mem_singleton_self acc⟩
  | _ => rfl

theorem dtypes?_cons {r : Reg} {rs : List Reg} {t : DType} {ts : List DType} :
    c.dtypes? inputs (r :: rs) = some (t :: ts) ↔
      c.dtype? inputs r = some t ∧ c.dtypes? inputs rs = some ts := by
  simp only [dtypes?, List.mapM_cons, Option.bind_eq_bind, Option.bind_eq_some_iff, Option.pure_def,
    Option.some.injEq, List.cons.injEq]
  constructor
  · rintro ⟨_, hr, _, hrs, rfl, rfl⟩
    exact ⟨hr, hrs⟩
  · rintro ⟨hr, hrs⟩
    exact ⟨t, hr, ts, hrs, rfl, rfl⟩

end LoopCode
end LoopNest
