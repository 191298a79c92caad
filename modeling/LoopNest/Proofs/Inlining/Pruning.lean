import LoopNest.Inlining
import LoopNest.Proofs.Lowering.Scoping

/-! Pruning of loads: emitted code has none that nothing reads, and the loads of collections are
left out once their loops are gone. -/
namespace LoopNest
namespace Inlining

/-- The registers that code reads. -/
def reads (is : List Instr) : List Reg := is.flatMap fun i => i.op.inputs

@[simp] theorem reads_append (is js : List Instr) : reads (is ++ js) = reads is ++ reads js :=
  List.flatMap_append

@[simp] theorem reads_cons (i : Instr) (is : List Instr) :
    reads (i :: is) = i.op.inputs ++ reads is :=
  List.flatMap_cons

section Step

variable {i : Instr} {later : List Instr × List Reg}

theorem keepLive_of_read (hi : isLoad i.op = true → ∃ r ∈ later.2, i.result = some r) :
    keepLive i later = (i :: later.1, i.op.inputs ++ later.2) := by
  refine if_neg fun hdead => ?_
  obtain ⟨hload, hunread⟩ := Bool.and_eq_true_iff.1 hdead
  obtain ⟨r, hr, hresult⟩ := hi hload
  simp [hresult, hr] at hunread

theorem keepLive_of_unread (hload : isLoad i.op = true) (h : ∀ r ∈ later.2, i.result ≠ some r) :
    keepLive i later = later := by
  have hresult : i.result.any later.2.contains = false := by
    cases hr : i.result with
    | none => rfl
    | some r =>
      have hmem : r ∉ later.2 := fun hread => h r hread hr
      simp [hmem]
  rw [keepLive, hload, hresult]
  rfl

end Step

/-- No load of the code is pruned, given the registers that are read after it. -/
def Kept (is : List Instr) (live : List Reg) : Prop :=
  ∀ later, is.foldr keepLive (later, live) = (is ++ later, reads is ++ live)

namespace Kept

variable {is js : List Instr} {live : List Reg}

theorem nil : Kept [] live := fun _ => rfl

theorem append (h : Kept is (reads js ++ live)) (h' : Kept js live) : Kept (is ++ js) live := by
  intro later
  rw [List.foldr_append, h', h, reads_append, List.append_assoc, List.append_assoc]

theorem cons {i : Instr} (hi : isLoad i.op = true → ∃ r ∈ reads is ++ live, i.result = some r)
    (h : Kept is live) : Kept (i :: is) live := by
  intro later
  rw [List.foldr_cons, h later, keepLive_of_read hi, reads_cons, List.append_assoc]
  rfl

theorem cons_of_not_load {i : Instr} (hi : isLoad i.op = false) (h : Kept is live) :
    Kept (i :: is) live :=
  h.cons fun hl => by rw [hi] at hl; cases hl

end Kept

/-- Loads of registers that nothing reads are pruned, one after the other. -/
theorem foldr_keepLive_of_dead {is : List Instr} {live : List Reg}
    (h : ∀ i ∈ is, isLoad i.op = true ∧ ∀ r ∈ i.defs, r ∉ live) (later : List Instr) :
    is.foldr keepLive (later, live) = (later, live) := by
  induction is with
  | nil => rfl
  | cons i is ih =>
    obtain ⟨⟨hload, hdead⟩, hrest⟩ := List.forall_mem_cons.1 h
    have hunread : ∀ r ∈ live, i.result ≠ some r :=
      fun r hr hresult => hdead r (by simp [Instr.defs, hresult]) hr
    rw [List.foldr_cons, ih hrest, keepLive_of_unread hload hunread]

end Inlining

open Inlining

/-- All loads of a walk lead to its result. -/
theorem Walks.kept {dtype : Option DType} {base r : Reg} {keys : FieldPath} {is : List Instr}
    (h : Walks dtype base keys is r) {live : List Reg} (hr : r ∈ live) :
    Kept is live ∧ base ∈ reads is ++ live := by
  induction h with
  | stay => exact ⟨.nil, hr⟩
  | load _ ih =>
    obtain ⟨hkept, hmem⟩ := ih hr
    exact ⟨hkept.cons fun _ => ⟨_, hmem, rfl⟩, List.mem_cons_self⟩

theorem Loads.kept {dtype : Option DType} {places : List (Place Reg)} {test : FieldPath → Bool}
    {path : FieldPath} {is : List Instr} {r : Reg} (h : Loads dtype places test path is r)
    {live : List Reg} (hr : r ∈ live) : Kept is live := by
  cases h with
  | place _ hw => exact (hw.kept hr).1
  | root _ hw =>
    obtain ⟨hkept, hmem⟩ := hw.kept hr
    exact hkept.cons fun _ => ⟨_, hmem, rfl⟩

theorem Opens.kept {carriers : CarrierMap} {places inner : List (Place Reg)} {axes rest : Axes}
    {os : List Opening} (h : Opens carriers places axes rest os inner) {body : Block}
    (hb : ∀ live, Kept body.instrs live) (live : List Reg) :
    Kept (Opening.wrap os body).instrs live := by
  induction h generalizing live with
  | nil => exact hb live
  | @cons _ _ _ _ _ _ o os _ _ hl _ ih =>
    rw [Opening.wrap_cons, Block.instrs_append, Block.instrs_steps, Block.instrs_loop]
    have hstop : Kept [o.stop] live := Kept.nil.cons_of_not_load rfl
    have hloop : Kept (o.start :: ((Opening.wrap os body).instrs ++ [o.stop])) live :=
      ((ih _).append hstop).cons_of_not_load rfl
    refine Kept.append ?_ hloop
    rw [Block.instrs_done, List.append_nil]
    exact hl.kept List.mem_cons_self

/-- Emitted code has no load that nothing reads, if its results are read. -/
theorem Emits.kept {env : Lowering.Env} {inlined : Bool} {known : String → Option StampedExpr}
    {places : List (Place Reg)} {es : List StampedExpr} {b : Block} {rs : List Reg}
    {refs : List Reference} (h : Emits env inlined known places es b rs refs) {live : List Reg}
    (hr : rs ⊆ live) : Kept b.instrs live := by
  -- operands first, then an instruction that reads their values
  have hput {b₁ b₂ : Block} {i : Instr} {rs live : List Reg} (hi : isLoad i.op = false)
      (hin : rs ⊆ i.op.inputs) (h₁ : ∀ live, rs ⊆ live → Kept b₁.instrs live)
      (h₂ : Kept b₂.instrs live) : Kept (b₁ ++ .step i b₂).instrs live := by
    rw [Block.instrs_append]
    refine Kept.append (h₁ _ ?_) (h₂.cons_of_not_load hi)
    rw [Block.instrs_step, reads_cons]
    exact List.subset_append_of_subset_left _ (List.subset_append_of_subset_left _ hin)
  induction h generalizing live with
  | nil => exact .nil
  | constant _ ih => exact (ih fun q hq => hr (List.mem_cons_of_mem _ hq)).cons_of_not_load rfl
  | input hl _ ih =>
    rw [Block.instrs_steps]
    refine Kept.append (hl.kept ?_) (ih fun q hq => hr (List.mem_cons_of_mem _ hq))
    exact List.mem_append_right _ (hr List.mem_cons_self)
  | load _ _ _ _ ih => exact (ih fun q hq => hr (List.mem_cons_of_mem _ hq)).cons_of_not_load rfl
  | compute _ _ _ _ _ _ _ ihbody ih =>
    rw [Block.instrs_append]
    refine Kept.append (ihbody ?_) (ih fun q hq => hr (List.mem_cons_of_mem _ hq))
    refine List.cons_subset.2 ⟨?_, List.nil_subset _⟩
    exact List.mem_append_right _ (hr List.mem_cons_self)
  | call _ _ ihargs ih =>
    exact hput rfl (List.Subset.refl _) (fun _ hl => ihargs hl)
      (ih fun q hq => hr (List.mem_cons_of_mem _ hq))
  | tuple _ _ ihargs ih =>
    exact hput rfl (List.Subset.refl _) (fun _ hl => ihargs hl)
      (ih fun q hq => hr (List.mem_cons_of_mem _ hq))
  | select _ _ ihargs ih =>
    exact hput rfl (List.Subset.refl _) (fun _ hl => ihargs hl)
      (ih fun q hq => hr (List.mem_cons_of_mem _ hq))
  | @reduce _ _ m op _ _ _ os b₁ b₂ v r acc _ _ _ _ _ s₂ s₃ _ _ _ _ ho _ _ iharg ih =>
    let add : Instr := ⟨none, .accumulate acc op v, s₂⟩
    let out : Instr := ⟨some r, .loadAccumulator acc m.stamp.dtype, s₃⟩
    have hadd (live : List Reg) : Kept (b₁ ++ .step add .done).instrs live :=
      hput rfl (List.Subset.refl _) (fun _ hl => iharg hl) .nil
    have hout : Kept (.step out b₂ : Block).instrs live :=
      (ih fun q hq => hr (List.mem_cons_of_mem _ hq)).cons_of_not_load rfl
    have hall : Kept (Opening.wrap os (b₁ ++ .step add .done) ++ .step out b₂).instrs live := by
      rw [Block.instrs_append]
      exact (ho.kept hadd _).append hout
    exact hall.cons_of_not_load rfl

end LoopNest
