import LoopNest.Proofs.Code.Validity
import LoopNest.Proofs.Inlining.Preservation

/-! The code of a module is valid, as it is lowered and as it is inlined: the check accepts it, and
no name is read outside of the loop in which it is introduced. -/
namespace LoopNest

namespace Nest

variable {n : Nest} {env : Lowering.Env} {inlined : Bool} {known : String → Option StampedExpr}
  {body : StampedExpr}

/-- The code of a nest is valid. -/
theorem For.checkInstrs_eq (h : n.For env inlined known body) :
    LoopCode.checkInstrs n.tree.instrs = .ok () := by
  have hclosed : openLoops n.tree.instrs = [] := openLoops_block [] h.regular
  have hsplit : n.tree.instrs = Opening.heads n.openings ++ n.block.instrs ++
      n.yield :: Opening.tails n.openings := by
    rw [n.instrs_tree, List.append_assoc]
  have hreads : AtEach Instr.ReadsIntroduced [] n.tree.instrs := fun before i rest hi =>
    (h.readsInScope before i rest hi).introduced
  refine LoopCode.checkInstrs_eq_ok hreads (h.regular.atEach_endsInnermost []) hclosed hsplit ?_
    rfl ?_
  · exact List.forall_mem_append.2 ⟨h.opens.not_yield, h.emits.not_yield⟩
  · intro i hi
    obtain ⟨o, -, rfl⟩ := List.mem_map.1 (List.mem_reverse.1 hi)
    rfl

end Nest

/-- All that the instructions of code read is in scope. -/
def LoopCode.ReadsInScope (c : LoopCode) : Prop :=
  ∀ before i rest, c.instrs = before ++ i :: rest → i.ReadsInScope before

namespace StampedModule

variable {env : Lowering.Env} {inlined : Bool} {done ds : List StampedDecl} {cs : List LoopCode}

theorem Codes.valid (h : Codes env inlined done ds cs) :
    ∀ c ∈ cs, c.check = .ok () ∧ c.ReadsInScope := by
  induction h with
  | nil => exact List.forall_mem_nil _
  | @cons done ds d c cs n _ hn _ hinstrs _ _ ih =>
    refine List.forall_mem_cons.2 ⟨⟨?_, fun before i rest hi => ?_⟩, ih⟩
    · rw [LoopCode.check, hinstrs, hn.checkInstrs_eq]
      rfl
    · exact hn.readsInScope before i rest (hinstrs ▸ hi)

theorem Codes.check_eq {m : LoopModule} (h : Codes env inlined done ds m.decls) :
    m.check = .ok () :=
  forM_eq_ok fun c hc => (h.valid c hc).1

end StampedModule

namespace LoopModule

/-- The code of a module and its inlined form are valid and read only what is in scope. -/
theorem ofStamped_valid_and_scoped {ds : List (Declaration Span)} {g : Graph} {inputs : InputTable}
    {registry : Registry} {a : Analysis} {sm : StampedModule} {carriers : CarrierMap}
    {m : LoopModule}
    (hg : Graph.ofDeclarations ds = .ok g) (ha : Analysis.ofGraph g inputs registry = .ok a)
    (hsm : StampedModule.ofGraph g a registry = .ok sm) (hm : CarrierMap.ofModule sm = .ok carriers)
    (hl : ofStamped sm carriers registry = .ok m) :
    m.check = .ok () ∧ m.inline.check = .ok () ∧
      (∀ c ∈ m.decls, c.ReadsInScope) ∧ ∀ c ∈ m.inline.decls, c.ReadsInScope := by
  have hc := StampedModule.consistent_ofGraph hg ha hsm
  have hcodes := StampedModule.codes_ofStamped hc hm hl
  have hinlined := StampedModule.codes_inline hcodes hc.names
  exact ⟨hcodes.check_eq, hinlined.check_eq, fun c hc => (hcodes.valid c hc).2,
    fun c hc => (hinlined.valid c hc).2⟩

theorem rowSums_valid_and_scoped :
    ∃ a sm carriers m, Graph.ofDeclarations rowSums = .ok rowSumsProgram.graph ∧
      Analysis.ofGraph rowSumsProgram.graph rowSumsProgram.inputs .builtins = .ok a ∧
      StampedModule.ofGraph rowSumsProgram.graph a .builtins = .ok sm ∧
      CarrierMap.ofModule sm = .ok carriers ∧ ofStamped sm carriers .builtins = .ok m ∧
      m.check = .ok () ∧ m.inline.check = .ok () ∧
      (∀ c ∈ m.decls, c.ReadsInScope) ∧ ∀ c ∈ m.inline.decls, c.ReadsInScope := by
  have hok : Session.failed? (rowSumsProgram.lowering .builtins true).1 = none := by decide +kernel
  obtain ⟨a, sm, carriers, m, ha, hsm, hm, hl, -⟩ := Session.run_lower hok
  have hg : Graph.ofDeclarations rowSums = .ok rowSumsProgram.graph := rfl
  exact ⟨a, sm, carriers, m, hg, ha, hsm, hm, hl, ofStamped_valid_and_scoped hg ha hsm hm hl⟩

end LoopModule
end LoopNest
