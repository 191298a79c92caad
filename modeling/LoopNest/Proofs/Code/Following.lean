import LoopNest.Proofs.Code.Visibility

/-! Registers followed back through code: a field leads to the register that it is taken from, and
the element of a loop to the collection of the loop. The steps on the way tell the loops that a
value comes through and the path of its field. -/
namespace LoopNest

/-- A step into a value: to a field of it, or to an element that is in the register of a loop. -/
inductive Hop where
  | field (key : String)
  | element (r : Reg)

namespace Hop

def key? : Hop → Option String
  | .field key => some key
  | .element _ => none

def element? : Hop → Option Reg
  | .field _ => none
  | .element r => some r

theorem filterMap_key?_map_field (keys : FieldPath) :
    (keys.map field).filterMap key? = keys := by
  rw [List.filterMap_map]
  exact List.filterMap_some

theorem filterMap_element?_map_field (keys : FieldPath) :
    (keys.map field).filterMap element? = [] := by
  rw [List.filterMap_map]
  exact List.filterMap_eq_nil_iff.2 fun _ _ => rfl

end Hop

namespace LoopCode

/-- Follows a register back through instructions, the last one first, up to the input. The result
has the steps from the input to the register. -/
def follow? : List Instr → Reg → Option (List Hop)
  | [], _ => none
  | i :: before, r =>
    if r ∈ i.defs then
      match i.op with
      | .loadInput key => some [.field key]
      | .loadField base key _ => (follow? before base).map (· ++ [.field key])
      | .loopStart _ collection element _ _ =>
        if r = element then (follow? before collection).map (· ++ [.element r]) else none
      | _ => none
    else follow? before r

/-- The steps that the value of a register comes by. -/
def route? (c : LoopCode) (r : Reg) : Option (List Hop) := follow? c.instrs.reverse r

/-- The elements of loops that the value of a register comes through. -/
def trail? (c : LoopCode) (r : Reg) : Option (List Reg) :=
  (c.route? r).map (List.filterMap Hop.element?)

/-- The path of the field that a register stands for; the element of a loop stands for the same one
as the collection. -/
def path? (c : LoopCode) (r : Reg) : Option FieldPath := (c.route? r).map (List.filterMap Hop.key?)

theorem follow?_append {later before : List Instr} {r : Reg} (h : ∀ i ∈ later, r ∉ i.defs) :
    follow? (later ++ before) r = follow? before r := by
  induction later with
  | nil => rfl
  | cons i later ih =>
    obtain ⟨hi, hlater⟩ := List.forall_mem_cons.1 h
    rw [List.cons_append, follow?, if_neg hi, ih hlater]

theorem follow?_loadInput (before : List Instr) (r : Reg) (key : String) (span : Span) :
    follow? (⟨some r, .loadInput key, span⟩ :: before) r = some [.field key] :=
  if_pos List.mem_cons_self

theorem follow?_loadField (before : List Instr) (r base : Reg) (key : String)
    (dtype : Option DType) (span : Span) :
    follow? (⟨some r, .loadField base key dtype, span⟩ :: before) r =
      (follow? before base).map (· ++ [.field key]) :=
  if_pos List.mem_cons_self

theorem follow?_element (before : List Instr) (collection element index : Reg) (axis : Axis)
    (id : LoopId) (span : Span) :
    follow? (⟨none, .loopStart axis collection element index id, span⟩ :: before) element =
      (follow? before collection).map (· ++ [.element element]) :=
  (if_pos List.mem_cons_self).trans (if_pos rfl)

theorem exists_defs_of_follow? {is : List Instr} {r : Reg} {hops : List Hop}
    (h : follow? is r = some hops) : ∃ i ∈ is, r ∈ i.defs := by
  induction is with
  | nil => cases h
  | cons i is ih =>
    by_cases hr : r ∈ i.defs
    · exact ⟨i, List.mem_cons_self, hr⟩
    · rw [follow?, if_neg hr] at h
      obtain ⟨j, hj, hdefs⟩ := ih h
      exact ⟨j, List.mem_cons_of_mem _ hj, hdefs⟩

/-- In more code a register is followed back by the same steps. -/
theorem follow?_mono {is js : List Instr} {r : Reg} {hops : List Hop} (hle : is <+: js)
    (hn : (js.flatMap Instr.defs).Nodup) (h : follow? is.reverse r = some hops) :
    follow? js.reverse r = some hops := by
  obtain ⟨rest, rfl⟩ := hle
  obtain ⟨j, hj, hdefs⟩ := exists_defs_of_follow? h
  rw [List.flatMap_append] at hn
  rw [List.reverse_append, follow?_append, h]
  intro i hi hr
  have hbefore : r ∈ is.flatMap Instr.defs :=
    List.mem_flatMap.2 ⟨j, List.mem_reverse.1 hj, hdefs⟩
  have hlater : r ∈ rest.flatMap Instr.defs := List.mem_flatMap.2 ⟨i, List.mem_reverse.1 hi, hr⟩
  exact (List.nodup_append.1 hn).2.2 r hbefore r hlater rfl

/-- Code whose registers can be followed back: each one is defined once, before it is read. -/
structure Followable (is : List Instr) : Prop where
  nodup : (is.flatMap Instr.defs).Nodup
  reads : AtEach Instr.ReadsInScope [] is

variable {c : LoopCode}

/-- The code before and after an instruction. What the instruction defines is not defined after it,
and what it reads is defined before it only. -/
theorem Followable.exists_reverse_eq (h : Followable c.instrs) {i : Instr} (hi : i ∈ c.instrs) :
    ∃ later before, c.instrs.reverse = later ++ i :: before ∧
      (∀ r ∈ i.defs, ∀ j ∈ later, r ∉ j.defs) ∧
      ∀ q ∈ i.op.inputs, ∀ j ∈ later ++ [i], q ∉ j.defs := by
  obtain ⟨pre, post, hsplit⟩ := List.append_of_mem hi
  have hnodup := h.nodup
  rw [hsplit, List.flatMap_append, List.flatMap_cons] at hnodup
  refine ⟨post.reverse, pre.reverse, ?_, fun r hr j hj hmem => ?_, fun q hq j hj hmem => ?_⟩
  · rw [hsplit]
    simp
  · have hpost : r ∈ post.flatMap Instr.defs :=
      List.mem_flatMap.2 ⟨j, List.mem_reverse.1 hj, hmem⟩
    exact (List.nodup_append.1 hnodup.of_append_right).2.2 r hr r hpost rfl
  · have hbefore : q ∈ pre.flatMap Instr.defs := ((h.reads pre i post hsplit).1 q hq).mem
    have hlater : q ∈ i.defs ++ post.flatMap Instr.defs := by
      rcases List.mem_append.1 hj with hj | hj
      · exact List.mem_append_right _ (List.mem_flatMap.2 ⟨j, List.mem_reverse.1 hj, hmem⟩)
      · rw [List.mem_singleton.1 hj] at hmem
        exact List.mem_append_left _ hmem
    exact (List.nodup_append.1 hnodup).2.2 q hbefore q hlater rfl

/-- A register leads to its instruction, and what the instruction reads leads to the code before. -/
theorem Followable.split (h : Followable c.instrs) {i : Instr} (hi : i ∈ c.instrs) :
    ∃ before, (∀ r ∈ i.defs, c.route? r = follow? (i :: before) r) ∧
      ∀ q ∈ i.op.inputs, c.route? q = follow? before q := by
  obtain ⟨later, before, hreverse, hdefs, hinputs⟩ := h.exists_reverse_eq hi
  refine ⟨before, fun r hr => ?_, fun q hq => ?_⟩
  · rw [route?, hreverse, follow?_append (hdefs r hr)]
  · rw [route?, hreverse, List.append_cons, follow?_append (hinputs q hq)]

namespace Followable

variable {r base element collection index : Reg} {key : String} {dtype : Option DType} {axis : Axis}
  {id : LoopId} {span : Span}

theorem route?_loadInput (h : Followable c.instrs)
    (hi : ⟨some r, .loadInput key, span⟩ ∈ c.instrs) : c.route? r = some [.field key] := by
  obtain ⟨before, hdefs, -⟩ := h.split hi
  rw [hdefs r List.mem_cons_self, follow?_loadInput]

theorem route?_loadField (h : Followable c.instrs)
    (hi : ⟨some r, .loadField base key dtype, span⟩ ∈ c.instrs) :
    c.route? r = (c.route? base).map (· ++ [.field key]) := by
  obtain ⟨before, hdefs, hinputs⟩ := h.split hi
  rw [hdefs r List.mem_cons_self, follow?_loadField, hinputs base (List.mem_singleton_self base)]

theorem route?_element (h : Followable c.instrs)
    (hi : ⟨none, .loopStart axis collection element index id, span⟩ ∈ c.instrs) :
    c.route? element = (c.route? collection).map (· ++ [.element element]) := by
  obtain ⟨before, hdefs, hinputs⟩ := h.split hi
  rw [hdefs element List.mem_cons_self, follow?_element,
    hinputs collection (List.mem_singleton_self collection)]

theorem trail?_element (h : Followable c.instrs)
    (hi : ⟨none, .loopStart axis collection element index id, span⟩ ∈ c.instrs) :
    c.trail? element = (c.trail? collection).map (· ++ [element]) := by
  simp [trail?, h.route?_element hi, Function.comp_def, Hop.element?]

theorem path?_loadInput (h : Followable c.instrs)
    (hi : ⟨some r, .loadInput key, span⟩ ∈ c.instrs) : c.path? r = some [key] := by
  simp [path?, h.route?_loadInput hi, Hop.key?]

theorem path?_loadField (h : Followable c.instrs)
    (hi : ⟨some r, .loadField base key dtype, span⟩ ∈ c.instrs) :
    c.path? r = (c.path? base).map (· ++ [key]) := by
  simp [path?, h.route?_loadField hi, Function.comp_def, Hop.key?]

theorem path?_element (h : Followable c.instrs)
    (hi : ⟨none, .loopStart axis collection element index id, span⟩ ∈ c.instrs) :
    c.path? element = c.path? collection := by
  simp [path?, h.route?_element hi, Function.comp_def, Hop.key?, List.filterMap_cons]

end Followable
end LoopCode
end LoopNest
