import LoopNest.Code.Basic
import LoopNest.Proofs.Code.Names

/-! Scopes in loop code as a tree: a name that is introduced inside of a loop is in scope until the
loop ends. -/
namespace LoopNest

namespace OpenLoop

theorem after_of_not_delimiter {op : Op} (h : op.isDelimiter = false) (stack : List OpenLoop) :
    after stack op = stack := by
  cases op with
  | loopStart | loopEnd => cases h
  | _ => rfl

theorem after_of_starts {i : Instr} {id : LoopId} (h : i.starts = [id]) (stack : List OpenLoop) :
    ∃ l, l.id = id ∧ after stack i.op = l :: stack := by
  rcases i with ⟨_, op, _⟩
  cases op with
  | loopStart axis collection element index id =>
    exact ⟨⟨axis, element, index, id⟩, (List.cons.inj h).1, rfl⟩
  | _ => cases h

end OpenLoop

/-- The accumulator that an instruction adds to or reads. -/
def Instr.uses (i : Instr) : List AccId :=
  match i.op with
  | .accumulate acc _ _ | .loadAccumulator acc _ => [acc]
  | _ => []

theorem Instr.uses_of_starts {i : Instr} {id : LoopId} (h : i.starts = [id]) : i.uses = [] := by
  rcases i with ⟨_, op, _⟩
  cases op with
  | loopStart => rfl
  | _ => cases h

namespace Block

variable {α : Type}

/-- What the instructions outside of all loops introduce. -/
def top (names : Instr → List α) : Block → List α
  | .done => []
  | .step i rest => names i ++ rest.top names
  | .loop _ _ _ rest => rest.top names

@[simp] theorem top_append (names : Instr → List α) (a b : Block) :
    (a ++ b).top names = a.top names ++ b.top names := by
  induction a with
  | done => rfl
  | step i rest ih => rw [step_append, top, top, ih, List.append_assoc]
  | loop start body stop rest _ ih => exact ih

@[simp] theorem top_steps (names : Instr → List α) (is : List Instr) (b : Block) :
    (steps is b).top names = is.flatMap names ++ b.top names := by
  induction is with
  | nil => rfl
  | cons i is ih => rw [steps_cons, top, ih, List.flatMap_cons, List.append_assoc]

theorem append_subset_append {l l₁ l₂ : List α} (h : l₁ ⊆ l₂) : l ++ l₁ ⊆ l ++ l₂ :=
  List.append_subset.2 ⟨List.subset_append_left _ _, List.subset_append_of_subset_right _ h⟩

theorem top_subset (names : Instr → List α) (b : Block) :
    b.top names ⊆ b.instrs.flatMap names := by
  induction b with
  | done => exact List.Subset.refl _
  | step i rest ih => exact append_subset_append ih
  | loop start body stop rest _ ih =>
    refine List.Subset.trans ih fun a ha => ?_
    rw [instrs_loop, List.flatMap_cons, List.flatMap_append, List.flatMap_cons]
    simp [ha]

/-- Code reads only what is in scope: given names, and what it introduced itself in the same loop or
in one around. -/
def Scoped : Block → List Reg → List AccId → Prop
  | .done, _, _ => True
  | .step i rest, regs, accs =>
    (i.op.inputs ⊆ regs ∧ i.uses ⊆ accs) ∧ rest.Scoped (i.defs ++ regs) (i.declares ++ accs)
  | .loop start body _ rest, regs, accs =>
    start.op.inputs ⊆ regs ∧ body.Scoped (start.defs ++ regs) accs ∧ rest.Scoped regs accs

namespace Scoped

variable {a b : Block} {regs regs' : List Reg} {accs accs' : List AccId}

theorem mono (h : b.Scoped regs accs) (hr : regs ⊆ regs') (ha : accs ⊆ accs') :
    b.Scoped regs' accs' := by
  induction b generalizing regs regs' accs accs' with
  | done => trivial
  | step i rest ih =>
    obtain ⟨⟨hin, huse⟩, hrest⟩ := h
    exact ⟨⟨List.Subset.trans hin hr, List.Subset.trans huse ha⟩,
      ih hrest (append_subset_append hr) (append_subset_append ha)⟩
  | loop start body stop rest ihbody ih =>
    obtain ⟨hin, hbody, hrest⟩ := h
    exact ⟨List.Subset.trans hin hr, ihbody hbody (append_subset_append hr) ha, ih hrest hr ha⟩

theorem append (ha : a.Scoped regs accs)
    (hb : b.Scoped (a.top Instr.defs ++ regs) (a.top Instr.declares ++ accs)) :
    (a ++ b).Scoped regs accs := by
  induction a generalizing regs accs with
  | done => exact hb
  | step i rest ih =>
    refine ⟨ha.1, ih ha.2 (hb.mono ?_ ?_)⟩
    · intro r
      simp only [top, List.mem_append]
      tauto
    · intro r
      simp only [top, List.mem_append]
      tauto
  | loop start body stop rest _ ih => exact ⟨ha.1, ha.2.1, ih ha.2.2 hb⟩

/-- What is read is given, or defined by the code itself. -/
theorem inputs_subset (hr : b.Regular) (h : b.Scoped regs accs) :
    (b.instrs.flatMap fun i => i.op.inputs) ⊆ regs ++ b.defs := by
  induction b generalizing regs accs with
  | done => exact List.nil_subset _
  | step i rest ih =>
    rw [instrs_step, List.flatMap_cons, List.append_subset]
    refine ⟨List.Subset.trans h.1.1 (List.subset_append_left _ _),
      List.Subset.trans (ih hr.2 h.2) fun r hr => ?_⟩
    simp only [defs, instrs_step, List.flatMap_cons, List.mem_append] at hr ⊢
    tauto
  | loop start body stop rest ihbody ih =>
    obtain ⟨⟨id, -, hstop⟩, hbody, hrest⟩ := hr
    rw [instrs_loop, List.flatMap_cons, List.flatMap_append, List.flatMap_cons, hstop,
      List.append_subset, List.append_subset, List.append_subset]
    refine ⟨List.Subset.trans h.1 (List.subset_append_left _ _),
      List.Subset.trans (ihbody hbody h.2.1) fun r hr => ?_, List.nil_subset _,
      List.Subset.trans (ih hrest h.2.2) fun r hr => ?_⟩
    all_goals
      simp only [defs, instrs_loop, List.flatMap_cons, List.flatMap_append, List.mem_append] at hr ⊢
      tauto

end Scoped

namespace Regular

/-- All loops of a block are closed at its end. -/
theorem foldl_after {b : Block} (h : b.Regular) (stack : List OpenLoop) :
    b.instrs.foldl (fun stack i => OpenLoop.after stack i.op) stack = stack := by
  induction b generalizing stack with
  | done => rfl
  | step i rest ih => rw [instrs_step, List.foldl_cons, OpenLoop.after_of_not_delimiter h.1, ih h.2]
  | loop start body stop rest ihbody ih =>
    obtain ⟨⟨id, hstart, hstop⟩, hbody, hrest⟩ := h
    obtain ⟨l, -, hl⟩ := OpenLoop.after_of_starts hstart stack
    rw [instrs_loop, List.foldl_cons, hl, List.foldl_append, ihbody hbody, List.foldl_cons, hstop,
      OpenLoop.after, List.tail_cons, ih hrest]

/-- A loop that a block ends is one that it starts. -/
theorem mem_starts {b : Block} (h : b.Regular) {i : Instr} (hi : i ∈ b.instrs) {id : LoopId}
    (hop : i.op = .loopEnd id) : id ∈ b.instrs.flatMap Instr.starts := by
  induction b with
  | done => cases hi
  | step j rest ih =>
    rcases List.mem_cons.1 hi with rfl | hi
    · have hno := h.1
      rw [hop] at hno
      cases hno
    · exact List.mem_append_right _ (ih h.2 hi)
  | loop start body stop rest ihbody ih =>
    obtain ⟨⟨id', hstart, hstop⟩, hbody, hrest⟩ := h
    simp only [instrs_loop, List.mem_cons, List.mem_append] at hi
    simp only [instrs_loop, List.flatMap_cons, List.flatMap_append, List.mem_append]
    rcases hi with rfl | hi | rfl | hi
    · rw [Instr.starts, hop] at hstart
      cases hstart
    · exact .inr (.inl (ihbody hbody hi))
    · rw [hstop] at hop
      cases hop
      exact .inl (hstart ▸ List.mem_singleton_self _)
    · exact .inr (.inr (.inr (ih hrest hi)))

end Regular
end Block

end LoopNest
