import LoopNest.Code.Json
import LoopNest.Proofs.Json.Numbers

/-! Code as JSON values. All of it can be told from the value, but for literals that have the same
value; and the value can be told from its text. -/
namespace LoopNest

/-- Lists with the same images are the same, if that holds of the elements of one. -/
theorem map_inj_of_forall {α β : Type} {f : α → β} {l : List α}
    (h : ∀ a ∈ l, ∀ b, f a = f b → a = b) {l' : List α} (hmap : l.map f = l'.map f) : l = l' := by
  induction l generalizing l' with
  | nil => rw [List.map_eq_nil_iff.1 hmap.symm]
  | cons a l ih =>
    cases l' with
    | nil => cases hmap
    | cons b l' =>
      obtain ⟨hab, htail⟩ := List.cons.inj hmap
      obtain ⟨ha, hl⟩ := List.forall_mem_cons.1 h
      rw [ha b hab, ih hl htail]

namespace Json

@[simp] theorem text_inj {s t : String} : text s = text t ↔ s = t := by simp [text]

@[simp] theorem nat_inj {m n : Nat} : nat m = nat n ↔ m = n := by
  rw [nat, nat, number.injEq, toString_nat_inj]

@[simp] theorem int_inj {m n : Int} : int m = int n ↔ m = n := by
  rw [int, int, number.injEq, toString_int_inj]

@[simp] theorem record_inj {fs gs : List (String × Json)} : record fs = record gs ↔ fs = gs := by
  have hinj : Function.Injective
      fun f : String × Json => ((some f.1, f.2) : Option String × Json) := by
    rintro ⟨k, v⟩ ⟨k', v'⟩ h
    cases h
    rfl
  rw [record, record, object.injEq, hinj.list_map.eq_iff]

theorem Valid.record {fields : List (String × Json)} (h : ∀ f ∈ fields, f.2.Valid) :
    (Json.record fields).Valid := by
  refine .object fun f hf => ?_
  obtain ⟨g, hg, rfl⟩ := List.mem_map.1 hf
  exact h g hg

theorem Valid.nat (n : Nat) : (Json.nat n).Valid := .number (isNumber_nat n)

theorem Valid.int (n : Int) : (Json.int n).Valid := .number (isNumber_int n)

theorem Valid.text (s : String) : (Json.text s).Valid := .string (some s)

/-- An array of the values of a list. -/
theorem Valid.map {α : Type} {f : α → Json} {l : List α} (h : ∀ a ∈ l, (f a).Valid) :
    (Json.array (l.map f)).Valid := by
  refine .array fun j hj => ?_
  obtain ⟨a, ha, rfl⟩ := List.mem_map.1 hj
  exact h a ha

end Json

namespace DType

theorem toJsonAll_eq (ts : List DType) : toJsonAll ts = ts.map toJson := by
  induction ts with
  | nil => rfl
  | cons t ts ih => rw [toJsonAll, ih, List.map_cons]

/-- Induction over types, with the elements of a tuple as a list. -/
@[elab_as_elim] theorem induction {motive : DType → Prop} (integer : motive .integer)
    (float : motive .float) (string : motive .string) (boolean : motive .boolean)
    (tuple : ∀ elems, (∀ t ∈ elems, motive t) → motive (.tuple elems)) (t : DType) : motive t := by
  refine DType.rec (motive_1 := motive) (motive_2 := fun l => ∀ t ∈ l, motive t) integer float
    string boolean tuple ?_ ?_ t
  · exact List.forall_mem_nil _
  · exact fun head tail hhead htail => List.forall_mem_cons.2 ⟨hhead, htail⟩

theorem toJson_valid (t : DType) : t.toJson.Valid := by
  induction t using DType.induction with
  | integer | float | string | boolean => exact .text _
  | tuple elems ih =>
    rw [toJson, toJsonAll_eq]
    exact .record (List.forall_mem_singleton.2 (.map ih))

theorem toJson_injective (t : DType) : ∀ u : DType, t.toJson = u.toJson → t = u := by
  induction t using DType.induction with
  | integer | float | string | boolean =>
    intro u h
    cases u with
    | tuple => cases h
    | _ => simp [toJson] at h ⊢
  | tuple elems ih =>
    intro u h
    cases u with
    | tuple elems' =>
      rw [toJson, toJson, Json.record_inj, toJsonAll_eq, toJsonAll_eq] at h
      simp only [List.cons.injEq, Prod.mk.injEq, true_and, and_true, Json.array.injEq] at h
      rw [map_inj_of_forall ih h]
    | _ => cases h

@[simp] theorem toJson_inj {t u : DType} : t.toJson = u.toJson ↔ t = u :=
  ⟨toJson_injective t u, fun h => h ▸ rfl⟩

@[simp] theorem optional_toJson_inj {t u : Option DType} :
    Json.optional toJson t = Json.optional toJson u ↔ t = u := by
  have hnull (t : DType) : t.toJson ≠ .null := by
    cases t <;> simp [toJson, Json.text, Json.record]
  cases t <;> cases u <;> simp [Json.optional, hnull, (hnull _).symm]

end DType

@[simp] theorem Reg.toJson_inj {r s : Reg} : r.toJson = s.toJson ↔ r = s := by
  cases r
  cases s
  simp [toJson]

@[simp] theorem AccId.index_inj {a b : AccId} : a.index = b.index ↔ a = b := by
  cases a
  cases b
  simp

@[simp] theorem LoopId.index_inj {a b : LoopId} : a.index = b.index ↔ a = b := by
  cases a
  cases b
  simp

@[simp] theorem Axis.name_inj {a b : Axis} : a.name = b.name ↔ a = b := by
  cases a
  cases b
  simp

@[simp] theorem Reg.map_toJson_inj {rs ss : List Reg} :
    rs.map toJson = ss.map toJson ↔ rs = ss :=
  ⟨map_inj_of_forall fun _ _ _ => toJson_inj.1, fun h => h ▸ rfl⟩

@[simp] theorem Axes.toJson_inj {a b : Axes} : a.toJson = b.toJson ↔ a = b := by
  refine ⟨fun h => ?_, fun h => h ▸ rfl⟩
  rw [toJson, toJson, Json.array.injEq] at h
  rw [← ofNames_names a, map_inj_of_forall (fun _ _ _ => Json.text_inj.1) h, ofNames_names]

@[simp] theorem Span.toJson_inj {a b : Span} : a.toJson = b.toJson ↔ a = b := by
  cases a
  cases b
  simp [toJson]

/-- The opcode of that text. -/
def Opcode.ofText? (text : String) : Option Opcode :=
  [constant, loadInput, loadField, loadDeclaration, makeTuple, select, kernelCall,
    declareAccumulator, accumulate, loadAccumulator, loopStart, loopEnd, yield].find?
      (·.text = text)

theorem Opcode.ofText?_text (o : Opcode) : ofText? o.text = some o := by
  cases o <;> decide

@[simp] theorem Opcode.text_inj {a b : Opcode} : a.text = b.text ↔ a = b := by
  refine ⟨fun h => Option.some.inj ?_, fun h => h ▸ rfl⟩
  rw [← ofText?_text, h, ofText?_text]

@[simp] theorem DeclKind.text_inj {a b : DeclKind} : a.text = b.text ↔ a = b := by
  cases a <;> cases b <;> simp [text]

/-- Operations that differ at most in literals with the same JSON value. -/
def Op.Alike : Op → Op → Prop
  | .constant v t, .constant v' t' => v.toJson = v'.toJson ∧ t = t'
  | .declareAccumulator acc op v t, .declareAccumulator acc' op' v' t' =>
    acc = acc' ∧ op = op' ∧ v.toJson = v'.toJson ∧ t = t'
  | a, b => a = b

theorem Op.alike_of_jsonFields {a b : Op} (hop : a.opcode = b.opcode)
    (h : a.jsonFields = b.jsonFields) : a.Alike b := by
  cases a <;> cases b <;> cases hop <;> simp_all [jsonFields, Alike]

/-- The fields of an instruction after its result. -/
theorem Op.alike_of_fields {a b : Op} {s t : Span}
    (h : ("opcode", Json.text a.opcode.text) :: a.jsonFields ++ [("location", s.toJson)] =
      ("opcode", Json.text b.opcode.text) :: b.jsonFields ++ [("location", t.toJson)]) :
    a.Alike b ∧ s = t := by
  obtain ⟨hfields, hlocation⟩ := List.append_inj' h rfl
  obtain ⟨hop, hfields⟩ := List.cons.inj hfields
  simp only [Prod.mk.injEq, true_and, Json.text_inj, Opcode.text_inj] at hop
  simp only [List.cons.injEq, Prod.mk.injEq, true_and, and_true, Span.toJson_inj] at hlocation
  exact ⟨alike_of_jsonFields hop hfields, hlocation⟩

/-- An instruction can be told from its JSON value, but for its literal. -/
theorem Instr.alike_of_toJson {i j : Instr} (h : i.toJson = j.toJson) :
    i.result = j.result ∧ i.op.Alike j.op ∧ i.location = j.location := by
  rw [toJson, toJson, Json.record_inj] at h
  rcases i with ⟨_ | r, a, s⟩ <;> rcases j with ⟨_ | r', b, t⟩
  · exact ⟨rfl, Op.alike_of_fields h⟩
  · simp at h
  · simp at h
  · obtain ⟨hr, h⟩ := List.cons.inj h
    simp only [Prod.mk.injEq, true_and, Reg.toJson_inj] at hr
    exact ⟨congrArg some hr, Op.alike_of_fields h⟩

section Validity

theorem Literal.toJson_valid (v : Literal) : v.toJson.Valid := by
  cases v with
  | integer n => exact .int _
  | float x =>
    rw [toJson, Double.renderInterchange?]
    split
    · exact .number (Double.isNumber_renderFinite _ x)
    · exact .null
  | string s => exact .text s
  | boolean b => exact .boolean b

theorem Reg.toJson_valid (r : Reg) : r.toJson.Valid := .nat _

theorem Axes.toJson_valid (a : Axes) : a.toJson.Valid := .map fun s _ => .text s

theorem Span.toJson_valid (s : Span) : s.toJson.Valid :=
  .array (List.forall_mem_cons.2 ⟨.nat _, List.forall_mem_singleton.2 (.nat _)⟩)

theorem Op.jsonFields_valid (op : Op) : ∀ f ∈ op.jsonFields, f.2.Valid := by
  have hregs (rs : List Reg) : (Json.array (rs.map Reg.toJson)).Valid :=
    .map fun r _ => r.toJson_valid
  have hdtype (t : Option DType) : (Json.optional DType.toJson t).Valid := by
    cases t with
    | none => exact .null
    | some t => exact t.toJson_valid
  cases op <;> simp [jsonFields, Literal.toJson_valid, Reg.toJson_valid, Axes.toJson_valid,
    DType.toJson_valid, Json.Valid.nat, Json.Valid.text, hregs, hdtype]

theorem Instr.toJson_valid (i : Instr) : i.toJson.Valid := by
  refine .record (List.forall_mem_append.2 ⟨List.forall_mem_append.2 ⟨?_, ?_⟩, ?_⟩)
  · cases i.result with
    | none => exact List.forall_mem_nil _
    | some r => exact List.forall_mem_singleton.2 (.nat _)
  · exact List.forall_mem_cons.2 ⟨.text _, i.op.jsonFields_valid⟩
  · exact List.forall_mem_singleton.2 i.location.toJson_valid

theorem LoopCode.toJson_valid (c : LoopCode) : c.toJson.Valid := by
  refine .record ?_
  simp only [List.forall_mem_cons]
  exact ⟨.text _, .text _, c.axes.toJson_valid, c.dtype.toJson_valid,
    .map fun i _ => i.toJson_valid, List.forall_mem_nil _⟩

theorem LoopModule.toJson_valid (m : LoopModule) : m.toJson.Valid :=
  .record (List.forall_mem_singleton.2 (.map fun c _ => c.toJson_valid))

end Validity

end LoopNest
