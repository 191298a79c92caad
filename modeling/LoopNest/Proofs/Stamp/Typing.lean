import LoopNest.Proofs.Fallible
import LoopNest.Stamp.Stamping

/-! The types of stamped expressions. Each node has the type that its kind gives for the types of
its subexpressions, and the analysis gives it just that. -/
namespace LoopNest

/-- The type of the result for types of arguments, where the function takes them. -/
def Signature.resultType? (f : Signature) (types : List DType) : Option DType :=
  match f.nameTypes types with
  | .error _ => none
  | .ok named => (f.rule.apply named).toOption

namespace StampedExpr

/-- The type on each node follows from those on its subexpressions, given the inputs, the functions
and the stamps of the declarations before. -/
inductive Typed (inputs : InputTable) (registry : Registry) (decls : List (String × Stamp)) :
    StampedExpr → Prop
  | constant {m : Mark} {v : Literal} : m.stamp.dtype = v.dtype →
    Typed inputs registry decls (.constant m v)
  | input {m : Mark} {path : FieldPath} {entry : InputEntry} :
    inputs.find? path = some entry → entry.dtype = m.stamp.dtype →
    Typed inputs registry decls (.input m path)
  | ref {m : Mark} {name : String} {stamp : Stamp} :
    decls.lookup name = some stamp → stamp.dtype = m.stamp.dtype →
    Typed inputs registry decls (.ref m name)
  | call {m : Mark} {func : String} {args : List StampedExpr} {f : Signature} :
    registry.find? func = some f → f.resultType? (args.map dtype) = some m.stamp.dtype →
    (∀ a ∈ args, Typed inputs registry decls a) → Typed inputs registry decls (.call m func args)
  | tuple {m : Mark} {elems : List StampedExpr} : m.stamp.dtype = .tuple (elems.map dtype) →
    (∀ a ∈ elems, Typed inputs registry decls a) → Typed inputs registry decls (.tuple m elems)
  | select {m : Mark} {c t f : StampedExpr} :
    c.dtype = .boolean → t.dtype.promote? f.dtype = some m.stamp.dtype →
    Typed inputs registry decls c → Typed inputs registry decls t →
    Typed inputs registry decls f → Typed inputs registry decls (.select m c t f)
  | reduce {m : Mark} {op : String} {reduced : Axes} {arg : StampedExpr} {f : Signature} :
    registry.find? op = some f → f.resultType? [arg.dtype] = some m.stamp.dtype →
    Typed inputs registry decls arg → Typed inputs registry decls (.reduce m op reduced arg)

/-- Types stay as they are where more declarations come before. -/
theorem Typed.mono {inputs : InputTable} {registry : Registry}
    {decls decls' : List (String × Stamp)}
    (hmono : ∀ name stamp, decls.lookup name = some stamp → decls'.lookup name = some stamp)
    {e : StampedExpr} (h : e.Typed inputs registry decls) : e.Typed inputs registry decls' := by
  induction h with
  | constant hv => exact .constant hv
  | input hfind ht => exact .input hfind ht
  | ref hlookup ht => exact .ref (hmono _ _ hlookup) ht
  | call hfind ht _ ih => exact .call hfind ht ih
  | tuple ht _ ih => exact .tuple ht ih
  | select hbool ht _ _ _ ihc iht ihf => exact .select hbool ht ihc iht ihf
  | reduce hfind ht _ ih => exact .reduce hfind ht ih

end StampedExpr

namespace Analysis

variable {env : Env}

theorem function_eq_ok {id : String} {span : Span} {f : Signature}
    (h : function env id span = .ok f) : env.registry.find? id = some f := by
  rw [function] at h
  split at h
  · rename_i f' hf
    cases h
    exact hf
  · cases h

theorem resultType_eq_ok {f : Signature} {args : List NodeFacts} {span : Span} {t : DType}
    (h : resultType f args span = .ok t) :
    f.resultType? (args.map NodeFacts.dtype) = some t := by
  rw [resultType] at h
  split at h
  · cases h
  · rename_i named hnamed
    split at h
    · cases h
    · rename_i t' ht
      cases h
      rw [Signature.resultType?, hnamed]
      simp only [ht]
      rfl

theorem dtype_reduceRule {f : Signature} {hint : Option Axes} {args : List NodeFacts} {span : Span}
    {i : NodeFacts} (h : reduceRule f hint args span = .ok i) :
    f.resultType? (args.map NodeFacts.dtype) = some i.dtype := by
  unfold reduceRule at h
  split at h
  · obtain ⟨_, -, h⟩ := Except.bind_eq_ok.1 h
    obtain ⟨dtype, ht, h⟩ := Except.bind_eq_ok.1 h
    cases h
    exact resultType_eq_ok ht
  · cases h

/-- A call has the type that the rule of its function gives. -/
theorem dtype_callRule {func : String} {args : List NodeFacts} {span : Span} {i : NodeFacts}
    (h : callRule env func args span = .ok i) :
    ∃ f, env.registry.find? func = some f ∧
      f.resultType? (args.map NodeFacts.dtype) = some i.dtype := by
  obtain ⟨f, hf, h⟩ := Except.bind_eq_ok.1 h
  refine ⟨f, function_eq_ok hf, ?_⟩
  split at h
  · exact dtype_reduceRule h
  all_goals
    obtain ⟨axes, -, h⟩ := Except.bind_eq_ok.1 h
    obtain ⟨dtype, ht, h⟩ := Except.bind_eq_ok.1 h
    cases h
    exact resultType_eq_ok ht

theorem dtype_explicitReduceRule {op : String} {hint : Option Axes} {arg i : NodeFacts}
    {span : Span} (h : explicitReduceRule env op hint arg span = .ok i) :
    ∃ f, env.registry.find? op = some f ∧ f.resultType? [arg.dtype] = some i.dtype := by
  obtain ⟨f, hf, h⟩ := Except.bind_eq_ok.1 h
  split at h
  · exact ⟨f, function_eq_ok hf, dtype_reduceRule h⟩
  · cases h

theorem dtype_tupleRule {args : List NodeFacts} {span : Span} {i : NodeFacts}
    (h : tupleRule args span = .ok i) : i.dtype = .tuple (args.map NodeFacts.dtype) := by
  obtain ⟨axes, -, h⟩ := Except.bind_eq_ok.1 h
  cases h
  rfl

theorem dtype_selectRule {c t f i : NodeFacts} {span : Span} (h : selectRule c t f span = .ok i) :
    c.dtype = .boolean ∧ t.dtype.promote? f.dtype = some i.dtype := by
  obtain ⟨axes, -, h⟩ := Except.bind_eq_ok.1 h
  split at h
  · rename_i hc
    split at h
    · rename_i dtype ht
      cases h
      exact ⟨hc, ht⟩
    · cases h
  · cases h

end Analysis
end LoopNest
