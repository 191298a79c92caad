import LoopNest.Proofs.Inlining.Pruning
import Mathlib.Data.List.Nodup

/-! Pruning is exact. In code that defines each register once and before it is read, a load is left
out just where nothing that stays needs its result, be it at the end of a chain of loads of any
length. What stays is the only part of the code that reads nothing undefined and has no load to
spare. -/
namespace LoopNest

/-- Where code reads one of the given registers, it has defined it before. -/
def DefinesFirst (regs : List Reg) (is : List Instr) : Prop :=
  ∀ before i rest, is = before ++ i :: rest →
    ∀ r ∈ i.op.inputs, r ∈ regs → r ∈ before.flatMap Instr.defs

/-- Each register is defined at most once, and before it is read. A register that the code reads and
does not define at all comes from the code around. -/
structure SingleAssignment (is : List Instr) : Prop where
  once : (is.flatMap Instr.defs).Nodup
  beforeRead : DefinesFirst (is.flatMap Instr.defs) is

namespace DefinesFirst

variable {regs : List Reg} {i : Instr} {is : List Instr}

theorem nil : DefinesFirst regs [] := by
  intro before i rest h
  cases before <;> cases h

theorem mono {regs' : List Reg} (h : DefinesFirst regs is) (hsub : regs' ⊆ regs) :
    DefinesFirst regs' is :=
  fun before i rest hi r hr hmem => h before i rest hi r hr (hsub hmem)

/-- An instruction in front reads none of its own registers, nor any that comes later. -/
theorem cons_iff (hnew : i.defs.Disjoint regs) : DefinesFirst (i.defs ++ regs) (i :: is) ↔
    (∀ r ∈ i.op.inputs, r ∉ i.defs ++ regs) ∧ DefinesFirst regs is := by
  constructor
  · intro h
    refine ⟨fun r hr hmem => List.not_mem_nil (h [] i is rfl r hr hmem), ?_⟩
    intro before j rest hj r hr hmem
    have hsplit : i :: is = (i :: before) ++ j :: rest := congrArg (i :: ·) hj
    have hdef := h (i :: before) j rest hsplit r hr (List.mem_append_right _ hmem)
    exact (List.mem_append.1 hdef).resolve_left fun hfirst => hnew hfirst hmem
  · rintro ⟨hreads, his⟩ before j rest hj r hr hmem
    cases before with
    | nil =>
      cases hj
      exact absurd hmem (hreads r hr)
    | cons k before =>
      cases hj
      rcases List.mem_append.1 hmem with hfirst | hlater
      · exact List.mem_append_left _ hfirst
      · exact List.mem_append_right _ (his before j rest rfl r hr hlater)

end DefinesFirst

namespace SingleAssignment

variable {i : Instr} {is : List Instr}

theorem nil : SingleAssignment [] := ⟨List.nodup_nil, .nil⟩

theorem disjoint (h : SingleAssignment (i :: is)) : i.defs.Disjoint (is.flatMap Instr.defs) :=
  List.disjoint_of_nodup_append h.once

theorem cons_iff : SingleAssignment (i :: is) ↔
    (∀ r ∈ i.op.inputs, r ∉ i.defs ++ is.flatMap Instr.defs) ∧
      (i.defs ++ is.flatMap Instr.defs).Nodup ∧ SingleAssignment is := by
  constructor
  · intro h
    obtain ⟨hreads, his⟩ := (DefinesFirst.cons_iff h.disjoint).1 h.beforeRead
    have honce : (i.defs ++ is.flatMap Instr.defs).Nodup := h.once
    exact ⟨hreads, honce, honce.of_append_right, his⟩
  · rintro ⟨hreads, honce, his⟩
    refine ⟨honce, (DefinesFirst.cons_iff ?_).2 ⟨hreads, his.beforeRead⟩⟩
    exact List.disjoint_of_nodup_append honce

instance decidable : (is : List Instr) → Decidable (SingleAssignment is)
  | [] => .isTrue nil
  | _ :: is =>
    have := decidable is
    decidable_of_iff' _ cons_iff

end SingleAssignment

namespace Inlining

theorem isLoad_iff {op : Op} : isLoad op = true ↔ op.opcode ∈ [.loadInput, .loadField] := by
  cases op <;> simp [isLoad, Op.opcode]

/-- A subsequence that has all instructions but for loads from the input and of fields. -/
inductive Omits : List Instr → List Instr → Prop
  | nil : Omits [] []
  | keep {i : Instr} {is kept : List Instr} : Omits is kept → Omits (i :: is) (i :: kept)
  | drop {i : Instr} {is kept : List Instr} :
    i.op.opcode ∈ [.loadInput, .loadField] → Omits is kept → Omits (i :: is) kept

theorem Omits.refl (is : List Instr) : Omits is is := by
  induction is with
  | nil => exact .nil
  | cons i is ih => exact .keep ih

theorem Omits.sublist {is kept : List Instr} (h : Omits is kept) : kept.Sublist is := by
  induction h with
  | nil => exact .slnil
  | keep _ ih => exact ih.cons_cons _
  | drop _ _ ih => exact ih.cons _

/-- The result of an instruction is the value of the code, or is read later on. -/
def Wanted (value : Reg) (later : List Instr) (i : Instr) : Prop :=
  ∃ r, i.result = some r ∧ (r = value ∨ r ∈ reads later)

/-- Some code is what is left of other code without its dead loads, given the register of the
value. -/
structure Pruned (value : Reg) (is kept : List Instr) : Prop where
  omits : Omits is kept
  /-- What is read is still defined before, if it was defined. -/
  beforeRead : DefinesFirst (is.flatMap Instr.defs) kept
  valueDefined : value ∈ is.flatMap Instr.defs → value ∈ kept.flatMap Instr.defs
  /-- No load is there for nothing. -/
  wanted : ∀ before i rest, kept = before ++ i :: rest →
    i.op.opcode ∈ [.loadInput, .loadField] → Wanted value rest i

section Pass

variable {value : Reg} {i : Instr} {is : List Instr}

/-- The pass carries along the registers that the kept code reads, with the value. -/
theorem foldr_keepLive (value : Reg) (is : List Instr) :
    is.foldr keepLive ([], [value]) =
      (pruneLoads value is, reads (pruneLoads value is) ++ [value]) := by
  refine Prod.ext rfl ?_
  unfold pruneLoads
  induction is with
  | nil => rfl
  | cons i is ih =>
    rw [List.foldr_cons, keepLive]
    split
    · exact ih
    · rw [ih, reads_cons, List.append_assoc]

theorem wanted_iff {later : List Instr} :
    Wanted value later i ↔ ∃ r ∈ reads later ++ [value], i.result = some r := by
  simp [Wanted, and_comm, or_comm]

theorem pruneLoads_of_wanted (h : isLoad i.op = true → Wanted value (pruneLoads value is) i) :
    pruneLoads value (i :: is) = i :: pruneLoads value is := by
  rw [pruneLoads, List.foldr_cons, foldr_keepLive]
  rw [keepLive_of_read fun hload => wanted_iff.1 (h hload)]

theorem pruneLoads_of_unwanted (hload : isLoad i.op = true)
    (h : ¬ Wanted value (pruneLoads value is) i) :
    pruneLoads value (i :: is) = pruneLoads value is := by
  rw [pruneLoads, List.foldr_cons, foldr_keepLive]
  rw [keepLive_of_unread hload fun r hr hresult => h (wanted_iff.2 ⟨r, hr, hresult⟩)]

end Pass

/-- A register that a load defines is its result. -/
theorem result_of_mem_defs {i : Instr} {r : Reg} (hload : isLoad i.op = true) (hr : r ∈ i.defs) :
    i.result = some r := by
  rcases i with ⟨result, op, span⟩
  cases op with
  | loadInput | loadField => simpa [Instr.defs, Op.loopRegisters] using hr
  | _ => cases hload

namespace Pruned

variable {value : Reg} {i : Instr} {is kept : List Instr}

theorem nil : Pruned value [] [] := by
  refine ⟨.nil, .nil, id, fun before _ _ h => ?_⟩
  cases before <;> cases h

/-- A register that is the value or is read by what is left is defined there, if it was. -/
theorem mem_defs (h : Pruned value is kept) {r : Reg} (hr : r = value ∨ r ∈ reads kept)
    (hdef : r ∈ is.flatMap Instr.defs) : r ∈ kept.flatMap Instr.defs := by
  rcases hr with rfl | hr
  · exact h.valueDefined hdef
  · obtain ⟨j, hj, hread⟩ := List.mem_flatMap.1 hr
    obtain ⟨before, rest, rfl⟩ := List.append_of_mem hj
    rw [List.flatMap_append]
    exact List.mem_append_left _ (h.beforeRead before j rest rfl r hread hdef)

theorem keep (h : Pruned value is kept) (hs : SingleAssignment (i :: is))
    (hwanted : isLoad i.op = true → Wanted value kept i) : Pruned value (i :: is) (i :: kept) := by
  obtain ⟨hreads, -, -⟩ := SingleAssignment.cons_iff.1 hs
  refine ⟨.keep h.omits, (DefinesFirst.cons_iff hs.disjoint).2 ⟨hreads, h.beforeRead⟩, ?_, ?_⟩
  · intro hdef
    exact List.mem_append.2 ((List.mem_append.1 hdef).imp_right h.valueDefined)
  · intro before j rest hj hload
    cases before with
    | nil =>
      cases hj
      exact hwanted (isLoad_iff.2 hload)
    | cons k before =>
      cases hj
      exact h.wanted before j rest rfl hload

theorem of_keep (h : Pruned value (i :: is) (i :: kept)) (homits : Omits is kept)
    (hs : SingleAssignment (i :: is)) :
    Pruned value is kept ∧ (isLoad i.op = true → Wanted value kept i) := by
  obtain ⟨-, hfirst⟩ := (DefinesFirst.cons_iff hs.disjoint).1 h.beforeRead
  refine ⟨⟨homits, hfirst, fun hdef => ?_, fun before j rest hj => ?_⟩, fun hload => ?_⟩
  · have hvalue := h.valueDefined (List.mem_append_right _ hdef)
    exact (List.mem_append.1 hvalue).resolve_left fun hmem => hs.disjoint hmem hdef
  · exact h.wanted (i :: before) j rest (congrArg (i :: ·) hj)
  · exact h.wanted [] i kept rfl (isLoad_iff.1 hload)

theorem drop (h : Pruned value is kept) (hload : isLoad i.op = true)
    (hunwanted : ¬ Wanted value kept i) : Pruned value (i :: is) kept := by
  -- the registers of the load are neither the value nor read
  have hdead {r : Reg} (hr : r = value ∨ r ∈ reads kept)
      (hdef : r ∈ (i :: is).flatMap Instr.defs) : r ∈ is.flatMap Instr.defs :=
    (List.mem_append.1 hdef).resolve_left fun hmem =>
      hunwanted ⟨r, result_of_mem_defs hload hmem, hr⟩
  refine ⟨.drop (isLoad_iff.1 hload) h.omits, fun before j rest hj r hr hdef => ?_, fun hdef => ?_,
    h.wanted⟩
  · have hread : r ∈ reads kept :=
      List.mem_flatMap.2 ⟨j, hj ▸ List.mem_append_right _ List.mem_cons_self, hr⟩
    exact h.beforeRead before j rest hj r hr (hdead (.inr hread) hdef)
  · exact h.valueDefined (hdead (.inl rfl) hdef)

theorem of_drop (h : Pruned value (i :: is) kept) (homits : Omits is kept)
    (hs : SingleAssignment (i :: is)) : Pruned value is kept ∧ ¬ Wanted value kept i := by
  refine ⟨⟨homits, h.beforeRead.mono (List.subset_append_right _ _), fun hdef => ?_, h.wanted⟩, ?_⟩
  · exact h.valueDefined (List.mem_append_right _ hdef)
  · -- nothing else defines the result of what is left out
    rintro ⟨r, hresult, hr⟩
    have hfirst : r ∈ i.defs := by simp [Instr.defs, hresult]
    have hkept := h.mem_defs hr (List.mem_append_left _ hfirst)
    exact hs.disjoint hfirst ((homits.sublist.flatMap _).subset hkept)

end Pruned

/-- Code has just one pruned form, and the pass from its end finds it. -/
theorem pruned_iff {value : Reg} {is : List Instr} (hs : SingleAssignment is) (kept : List Instr) :
    Pruned value is kept ↔ kept = pruneLoads value is := by
  induction is generalizing kept with
  | nil =>
    constructor
    · intro h
      cases h.omits
      rfl
    · rintro rfl
      exact .nil
  | cons i is ih =>
    obtain ⟨-, -, his⟩ := SingleAssignment.cons_iff.1 hs
    have hrest : Pruned value is (pruneLoads value is) := (ih his _).2 rfl
    constructor
    · intro h
      cases h.omits with
      | keep homits =>
        obtain ⟨htail, hwanted⟩ := h.of_keep homits hs
        obtain rfl := (ih his _).1 htail
        exact (pruneLoads_of_wanted hwanted).symm
      | drop hload homits =>
        obtain ⟨htail, hunwanted⟩ := h.of_drop homits hs
        obtain rfl := (ih his _).1 htail
        exact (pruneLoads_of_unwanted (isLoad_iff.2 hload) hunwanted).symm
    · rintro rfl
      by_cases hdead : isLoad i.op = true ∧ ¬ Wanted value (pruneLoads value is) i
      · rw [pruneLoads_of_unwanted hdead.1 hdead.2]
        exact hrest.drop hdead.1 hdead.2
      · have hwanted (hload : isLoad i.op = true) : Wanted value (pruneLoads value is) i :=
          not_not.1 (not_and.1 hdead hload)
        rw [pruneLoads_of_wanted hwanted]
        exact hrest.keep hs hwanted

namespace Pruned

variable {value : Reg} {is kept : List Instr}

theorem singleAssignment (h : Pruned value is kept) (hs : SingleAssignment is) :
    SingleAssignment kept := by
  have hsub := h.omits.sublist.flatMap Instr.defs
  exact ⟨hs.once.sublist hsub, h.beforeRead.mono hsub.subset⟩

/-- Pruned code has nothing left to prune. -/
theorem self (h : Pruned value is kept) : Pruned value kept kept :=
  ⟨.refl kept, h.beforeRead.mono (h.omits.sublist.flatMap _).subset, id, h.wanted⟩

end Pruned

/-- Pruning is exact: it leaves out loads only, leaves no read and no value without its definition
and no load that is not wanted, there is no other way to do so, and a second time it changes
nothing. -/
theorem pruneLoads_exact {is : List Instr} (hs : SingleAssignment is) (value : Reg) :
    Pruned value is (pruneLoads value is) ∧
      (∀ kept, Pruned value is kept → kept = pruneLoads value is) ∧
      pruneLoads value (pruneLoads value is) = pruneLoads value is := by
  have hpruned : Pruned value is (pruneLoads value is) := (pruned_iff hs _).2 rfl
  refine ⟨hpruned, fun kept => (pruned_iff hs kept).1, ?_⟩
  exact ((pruned_iff (hpruned.singleAssignment hs) _).1 hpruned.self).symm

/-- The sum of the prices of orders at a rate from outside. The owner of the shop is loaded field by
field for nothing, and so is a note inside of the loop. -/
def shopTotal : List Instr :=
  [⟨some ⟨0⟩, .loadInput "shop", .zero⟩,
    ⟨some ⟨1⟩, .loadField ⟨0⟩ "owner" none, .zero⟩,
    ⟨some ⟨2⟩, .loadField ⟨1⟩ "address" none, .zero⟩,
    ⟨some ⟨3⟩, .loadField ⟨2⟩ "town" (some .string), .zero⟩,
    ⟨some ⟨4⟩, .loadField ⟨0⟩ "orders" none, .zero⟩,
    ⟨none, .declareAccumulator ⟨0⟩ "sum" (.integer 0) .integer, .zero⟩,
    ⟨none, .loopStart ⟨"orders"⟩ ⟨4⟩ ⟨5⟩ ⟨6⟩ ⟨0⟩, .zero⟩,
    ⟨some ⟨7⟩, .loadField ⟨5⟩ "price" (some .integer), .zero⟩,
    ⟨some ⟨8⟩, .loadField ⟨5⟩ "note" (some .string), .zero⟩,
    ⟨some ⟨9⟩, .kernelCall "mul" [⟨7⟩, ⟨20⟩] .integer, .zero⟩,
    ⟨none, .accumulate ⟨0⟩ "sum" ⟨9⟩, .zero⟩,
    ⟨none, .loopEnd ⟨0⟩, .zero⟩,
    ⟨some ⟨10⟩, .loadAccumulator ⟨0⟩ .integer, .zero⟩]

theorem shopTotal_pruneLoads_exact :
    SingleAssignment shopTotal ∧
      (pruneLoads ⟨10⟩ shopTotal).flatMap Instr.defs = [⟨0⟩, ⟨4⟩, ⟨5⟩, ⟨6⟩, ⟨7⟩, ⟨9⟩, ⟨10⟩] ∧
      Pruned ⟨10⟩ shopTotal (pruneLoads ⟨10⟩ shopTotal) ∧
      (∀ kept, Pruned ⟨10⟩ shopTotal kept → kept = pruneLoads ⟨10⟩ shopTotal) ∧
      pruneLoads ⟨10⟩ (pruneLoads ⟨10⟩ shopTotal) = pruneLoads ⟨10⟩ shopTotal := by
  have hs : SingleAssignment shopTotal := by decide
  exact ⟨hs, rfl, pruneLoads_exact hs ⟨10⟩⟩

end Inlining
end LoopNest
