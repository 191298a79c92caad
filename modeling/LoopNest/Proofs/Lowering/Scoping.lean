import LoopNest.Proofs.Code.Visibility
import LoopNest.Proofs.Lowering.Nest

/-! Names in emitted code: it reads only what is in scope, and what it introduces stays apart from
the code around. -/
namespace LoopNest

namespace Block

/-- A block defines each name once, and none that the loops around use. -/
structure Fresh (b : Block) (places : List (Place Reg)) : Prop where
  regs : b.defs.Nodup
  accs : b.declares.Nodup
  outside : ∀ r ∈ Place.elements places, r ∉ b.defs

namespace Fresh

variable {a b : Block} {places : List (Place Reg)}

theorem left (h : (a ++ b).Fresh places) : a.Fresh places := by
  have hr := h.regs
  have ha := h.accs
  rw [defs, instrs_append, List.flatMap_append] at hr
  rw [declares, instrs_append, List.flatMap_append] at ha
  refine ⟨hr.of_append_left, ha.of_append_left, fun r hp hmem => h.outside r hp ?_⟩
  rw [defs, instrs_append, List.flatMap_append]
  exact List.mem_append_left _ hmem

theorem right (h : (a ++ b).Fresh places) : b.Fresh places := by
  have hr := h.regs
  have ha := h.accs
  rw [defs, instrs_append, List.flatMap_append] at hr
  rw [declares, instrs_append, List.flatMap_append] at ha
  refine ⟨hr.of_append_right, ha.of_append_right, fun r hp hmem => h.outside r hp ?_⟩
  rw [defs, instrs_append, List.flatMap_append]
  exact List.mem_append_right _ hmem

/-- What the first part defines is not defined again. -/
theorem not_mem_right (h : (a ++ b).Fresh places) {r : Reg}
    (hr : r ∈ a.defs ∨ r ∈ Place.elements places) : r ∉ b.defs := by
  rcases hr with hr | hr
  · have hnodup := h.regs
    rw [defs, instrs_append, List.flatMap_append, List.nodup_append] at hnodup
    exact fun hb => hnodup.2.2 r hr r hb rfl
  · exact h.right.outside r hr

end Fresh
end Block

theorem Block.defs_loop (o : Opening) (body : Block) :
    (Block.loop o.start body o.stop .done).defs = o.element :: o.index :: body.defs := by
  simp [Block.defs, Instr.defs, Opening.start, Opening.stop, Op.loopRegisters]

/-- The names of a loop are new to the code around, and not used again inside. -/
theorem Block.Fresh.of_loop {o : Opening} {body : Block} {places : List (Place Reg)}
    (h : (Block.loop o.start body o.stop .done).Fresh places) (logical : Axes)
    (carrier : FieldPath) :
    body.Fresh (⟨logical, carrier, o.element⟩ :: places) ∧ o.element ≠ o.index ∧
      ∀ r ∈ Place.elements places, r ∉ o.element :: o.index :: body.defs := by
  have hdeclares : (Block.loop o.start body o.stop .done).declares = body.declares := by
    simp [Block.declares, Instr.declares, Opening.start, Opening.stop]
  have hregs := h.regs
  have haccs := h.accs
  have houtside := h.outside
  rw [Block.defs_loop] at hregs houtside
  rw [hdeclares] at haccs
  simp only [List.nodup_cons, List.mem_cons, not_or] at hregs
  refine ⟨⟨hregs.2.2, haccs, fun r hr => ?_⟩, hregs.1.1, houtside⟩
  rcases List.mem_cons.1 hr with rfl | hr
  · exact hregs.1.2
  · exact fun hm => houtside r hr (List.mem_cons_of_mem _ (List.mem_cons_of_mem _ hm))

theorem Opening.wrap_cons (o : Opening) (os : List Opening) (body : Block) :
    wrap (o :: os) body = .steps o.loads .done ++ .loop o.start (wrap os body) o.stop .done := by
  rw [Block.steps_append]
  rfl

/-- What is fresh around loops is fresh inside of them. -/
theorem Opens.fresh {carriers : CarrierMap} {places inner : List (Place Reg)} {axes rest : Axes}
    {os : List Opening} (h : Opens carriers places axes rest os inner) {body : Block}
    (hf : (Opening.wrap os body).Fresh places) : body.Fresh inner := by
  induction h with
  | nil => exact hf
  | cons _ _ _ _ ih =>
    rw [Opening.wrap_cons] at hf
    exact ih (hf.right.of_loop _ _).1

/-- The result of a walk is where it starts, or is defined on the way. -/
theorem Walks.result_mem {dtype : Option DType} {base r : Reg} {keys : FieldPath} {is : List Instr}
    (h : Walks dtype base keys is r) : r = base ∨ r ∈ is.flatMap Instr.defs := by
  induction h with
  | stay => exact .inl rfl
  | load _ ih =>
    refine .inr ?_
    rw [List.flatMap_cons]
    rcases ih with rfl | ih
    · exact List.mem_append_left _ (by simp [Instr.defs])
    · exact List.mem_append_right _ ih

theorem Loads.result_mem {dtype : Option DType} {places : List (Place Reg)}
    {test : FieldPath → Bool} {path : FieldPath} {is : List Instr} {r : Reg}
    (h : Loads dtype places test path is r) :
    r ∈ is.flatMap Instr.defs ∨ r ∈ Place.elements places := by
  cases h with
  | place hfind hw =>
    rcases hw.result_mem with rfl | hmem
    · exact .inr (List.mem_map.2 ⟨_, List.mem_of_find?_eq_some hfind, rfl⟩)
    · exact .inl hmem
  | root _ hw =>
    refine .inl ?_
    rw [List.flatMap_cons]
    rcases hw.result_mem with rfl | hmem
    · exact List.mem_append_left _ (by simp [Instr.defs])
    · exact List.mem_append_right _ hmem

namespace Emits

variable {env : Lowering.Env} {inlined : Bool} {known : String → Option StampedExpr}
  {places : List (Place Reg)} {es : List StampedExpr} {b : Block} {rs : List Reg}
  {refs : List Reference}

/-- The results of emitted code are defined by it, outside of its loops, or are elements of the
loops around. -/
theorem results_top (h : Emits env inlined known places es b rs refs) :
    rs ⊆ b.top Instr.defs ++ Place.elements places := by
  have hput {op : Op} {span : Span} (b₁ : Block) {b₂ : Block} {r : Reg} {rs outer : List Reg}
      (h : rs ⊆ b₂.top Instr.defs ++ outer) :
      r :: rs ⊆ (b₁ ++ .step ⟨some r, op, span⟩ b₂).top Instr.defs ++ outer := by
    rw [Block.top_append, Block.top]
    refine List.cons_subset.2 ⟨by simp [Instr.defs], List.Subset.trans h fun q hq => ?_⟩
    rcases List.mem_append.1 hq with hq | hq <;> simp [hq]
  induction h with
  | nil => exact List.nil_subset _
  | constant _ ih => exact hput .done ih
  | @input places _ _ _ b is r rs _ hl _ ih =>
    rw [Block.top_steps, List.append_assoc]
    refine List.cons_subset.2 ⟨?_, List.Subset.trans ih (List.subset_append_right _ _)⟩
    rcases hl.result_mem with hmem | hmem <;> simp [hmem]
  | load _ _ _ _ ih => exact hput .done ih
  | compute _ _ _ _ _ _ _ ihbody ih =>
    rw [Block.top_append]
    refine List.cons_subset.2 ⟨?_, List.Subset.trans ih fun q hq => ?_⟩
    · have := ihbody List.mem_cons_self
      rcases List.mem_append.1 this with hq | hq <;> simp [hq]
    · rcases List.mem_append.1 hq with hq | hq <;> simp [hq]
  | call _ _ _ ih => exact hput _ ih
  | tuple _ _ _ ih => exact hput _ ih
  | select _ _ _ ih => exact hput _ ih
  | reduce _ _ _ _ _ _ _ _ ih => exact hput (.step _ _) ih

theorem results_mem (h : Emits env inlined known places es b rs refs) :
    ∀ r ∈ rs, r ∈ b.defs ∨ r ∈ Place.elements places := by
  intro r hr
  refine (List.mem_append.1 (h.results_top hr)).imp_left fun hmem => ?_
  exact b.top_subset Instr.defs hmem

end Emits

theorem Walks.scoped {dtype : Option DType} {base r : Reg} {keys : FieldPath} {is : List Instr}
    (h : Walks dtype base keys is r) {regs : List Reg} (hb : base ∈ regs) (accs : List AccId) :
    (Block.steps is .done).Scoped regs accs := by
  induction h generalizing regs with
  | stay => trivial
  | load _ ih =>
    refine ⟨⟨List.cons_subset.2 ⟨hb, List.nil_subset _⟩, List.nil_subset _⟩, ih ?_⟩
    exact List.mem_cons_self

theorem Loads.scoped {dtype : Option DType} {places : List (Place Reg)} {test : FieldPath → Bool}
    {path : FieldPath} {is : List Instr} {r : Reg} (h : Loads dtype places test path is r)
    {regs : List Reg} (he : Place.elements places ⊆ regs) (accs : List AccId) :
    (Block.steps is .done).Scoped regs accs := by
  cases h with
  | place hfind hw =>
    exact hw.scoped (he (List.mem_map.2 ⟨_, List.mem_of_find?_eq_some hfind, rfl⟩)) accs
  | root _ hw =>
    exact ⟨⟨List.nil_subset _, List.nil_subset _⟩, hw.scoped List.mem_cons_self accs⟩

/-- Loops read what is in scope, if the code inside of them does. -/
theorem Opens.scoped {carriers : CarrierMap} {places inner : List (Place Reg)} {axes rest : Axes}
    {os : List Opening} (h : Opens carriers places axes rest os inner) {body : Block}
    {regs : List Reg} {accs : List AccId} (he : Place.elements places ⊆ regs)
    (hb : ∀ regs', Place.elements inner ⊆ regs' → body.Scoped regs' accs) :
    (Opening.wrap os body).Scoped regs accs := by
  induction h generalizing regs with
  | nil => exact hb regs he
  | @cons places inner axes rest a carrier o os _ _ hl _ ih =>
    rw [Opening.wrap_cons]
    refine (hl.scoped he accs).append ?_
    rw [Block.top_steps, Block.top_steps, Block.top, Block.top, List.append_nil, List.append_nil]
    have hregs : Place.elements places ⊆
        o.start.defs ++ (o.loads.flatMap Instr.defs ++ regs) :=
      List.subset_append_of_subset_right _ (List.subset_append_of_subset_right _ he)
    refine ⟨List.cons_subset.2 ⟨?_, List.nil_subset _⟩, ?_, trivial⟩
    · exact List.mem_append.2 (hl.result_mem.imp_right fun hmem => he hmem)
    · exact (ih (List.cons_subset.2 ⟨List.mem_cons_self, hregs⟩) hb).mono (List.Subset.refl _)
        (List.subset_append_right _ _)

/-- Emitted code reads what is in scope, if the elements of the loops around are. -/
theorem Emits.scoped {env : Lowering.Env} {inlined : Bool} {known : String → Option StampedExpr}
    {places : List (Place Reg)} {es : List StampedExpr} {b : Block} {rs : List Reg}
    {refs : List Reference} (h : Emits env inlined known places es b rs refs) {regs : List Reg}
    (he : Place.elements places ⊆ regs) (accs : List AccId) : b.Scoped regs accs := by
  have hmore {α : Type} {l l' more : List α} (h : l ⊆ l') : l ⊆ more ++ l' :=
    List.subset_append_of_subset_right _ h
  -- operands first, then an instruction that reads their values
  have hput {places : List (Place Reg)} {es : List StampedExpr} {b b₂ : Block} {rs : List Reg}
      {refs : List Reference} {i : Instr} {regs : List Reg} {accs : List AccId}
      (h : Emits env inlined known places es b rs refs) (he : Place.elements places ⊆ regs)
      (h₁ : b.Scoped regs accs) (hin : i.op.inputs ⊆ rs) (huse : i.uses = [])
      (h₂ : ∀ regs' accs', Place.elements places ⊆ regs' → b₂.Scoped regs' accs') :
      (b ++ .step i b₂).Scoped regs accs := by
    have hresults : rs ⊆ b.top Instr.defs ++ regs :=
      List.Subset.trans h.results_top (Block.append_subset_append he)
    refine h₁.append ⟨⟨List.Subset.trans hin hresults, ?_⟩, h₂ _ _ (hmore (hmore he))⟩
    rw [huse]
    exact List.nil_subset _
  induction h generalizing regs accs with
  | nil => trivial
  | constant _ ih =>
    exact hput .nil (b := .done) he trivial (List.nil_subset _) rfl fun _ accs' he' => ih he' accs'
  | @input places _ _ _ b is _ _ _ hl _ ih =>
    have := (hl.scoped he accs).append (ih (hmore he) _)
    rwa [Block.steps_append] at this
  | load _ _ _ _ ih =>
    exact hput .nil (b := .done) he trivial (List.nil_subset _) rfl fun _ accs' he' => ih he' accs'
  | compute _ _ _ _ _ _ _ ihbody ih =>
    exact (ihbody he accs).append (ih (hmore he) _)
  | call hargs _ ihargs ih =>
    exact hput hargs he (ihargs he accs) (List.Subset.refl _) rfl fun _ accs' he' => ih he' accs'
  | tuple hargs _ ihargs ih =>
    exact hput hargs he (ihargs he accs) (List.Subset.refl _) rfl fun _ accs' he' => ih he' accs'
  | select hargs _ ihargs ih =>
    exact hput hargs he (ihargs he accs) (List.Subset.refl _) rfl fun _ accs' he' => ih he' accs'
  | @reduce places inner _ _ _ _ _ os b₁ b₂ v r acc _ _ _ _ _ _ _ _ _ _ _ ho harg _ iharg ih =>
    have hacc : [acc] ⊆ acc :: accs := List.cons_subset.2 ⟨List.mem_cons_self, List.nil_subset _⟩
    refine ⟨⟨List.nil_subset _, List.nil_subset _⟩, ?_⟩
    refine (ho.scoped he fun regs' he' => ?_).append ⟨⟨List.nil_subset _, ?_⟩, ?_⟩
    · -- the value is added inside of all loops
      have hv : [v] ⊆ b₁.top Instr.defs ++ regs' :=
        List.Subset.trans harg.results_top (Block.append_subset_append he')
      exact (iharg he' _).append ⟨⟨hv, hmore hacc⟩, trivial⟩
    · exact hmore hacc
    · exact ih (hmore (hmore he)) _

namespace Nest

variable {n : Nest} {env : Lowering.Env} {inlined : Bool} {known : String → Option StampedExpr}
  {body : StampedExpr}

/-- A nest reads what is in scope. -/
theorem For.scoped (h : n.For env inlined known body) : n.tree.Scoped [] [] := by
  refine h.opens.scoped (List.Subset.refl _) fun regs he => (h.emits.scoped he []).append ?_
  have hvalue : [n.value] ⊆ n.block.top Instr.defs ++ regs :=
    List.Subset.trans h.emits.results_top (Block.append_subset_append he)
  exact ⟨⟨hvalue, List.nil_subset _⟩, trivial⟩

theorem For.readsInScope (h : n.For env inlined known body) :
    AtEach Instr.ReadsInScope [] n.tree.instrs :=
  h.scoped.atEach h.regular (List.forall_mem_nil _) (List.forall_mem_nil _)

end Nest
end LoopNest
