import LoopNest.Proofs.Inlining.Module
import LoopNest.Proofs.Pipeline
import LoopNest.Proofs.Semantics.Module

/-! Inlining keeps the meaning of a module: whatever the operations on values are and whatever the
input is, each declaration yields the same values at the same indices. -/
namespace LoopNest
namespace LoopModule

/-- The code of a program and its inlined form yield the same, declaration by declaration. -/
theorem inline_preserves_yields {ds : List (Declaration Span)} {p : Program}
    (hg : Graph.ofDeclarations ds = .ok p.graph) (ht : p.inputs.TokensDistinct)
    {registry : Registry} {inlining : Bool}
    (hok : Session.failed? (p.lowering registry inlining).1 = none) :
    ∃ m, (p.lowering registry inlining).2.artifacts.code = some m ∧
      m.inline.decls.map LoopCode.name = m.decls.map LoopCode.name ∧
      ∀ (interp : Interpretation) (data : Json), ∃ ys,
        m.evaluate interp data = some ys ∧ m.inline.evaluate interp data = some ys ∧
        ys.map Prod.fst = m.decls.map LoopCode.name := by
  obtain ⟨a, sm, carriers, m, ha, hsm, hm, hl, hs⟩ := Session.run_lower hok
  have hc := StampedModule.consistent_ofGraph hg ha hsm
  have hcodes := StampedModule.codes_ofStamped hc hm hl
  have hinlined := StampedModule.codes_inline hcodes hc.names
  refine ⟨m, by rw [hs], hinlined.names.trans hcodes.names.symm, fun interp data => ?_⟩
  have heval := hc.evaluate_eq ht hm hcodes interp data
  exact ⟨_, heval, hc.evaluate_eq ht hm hinlined interp data, names_evaluateFrom heval⟩

/-- The sum of each row, and the sums in pairs: the second declaration takes in the loop of the
first twice. -/
def rowSums : List (Declaration Span) :=
  [⟨"total", .value, .reduce .zero "sum" none (.input .zero ["rows", "cells"]), .zero⟩,
    ⟨"pair", .value, .tuple .zero [.ref .zero "total", .ref .zero "total"], .zero⟩]

def rowSumsProgram : Program where
  inputs := InputTable.put .empty ⟨["rows", "cells"], [⟨"row"⟩, ⟨"cell"⟩], .integer, .zero⟩
  graph := ⟨Graph.numberFrom 0 rowSums⟩

theorem rowSums_inline_preserves_yields :
    Graph.ofDeclarations rowSums = .ok rowSumsProgram.graph ∧ rowSumsProgram.inputs.TokensDistinct ∧
      Session.failed? (rowSumsProgram.lowering .builtins true).1 = none ∧
      ∃ m, (rowSumsProgram.lowering .builtins true).2.artifacts.code = some m ∧
        m.inline.decls.map LoopCode.name = m.decls.map LoopCode.name ∧
        ∀ (interp : Interpretation) (data : Json), ∃ ys,
          m.evaluate interp data = some ys ∧ m.inline.evaluate interp data = some ys ∧
          ys.map Prod.fst = m.decls.map LoopCode.name :=
  have hg : Graph.ofDeclarations rowSums = .ok rowSumsProgram.graph := rfl
  have ht : rowSumsProgram.inputs.TokensDistinct := by decide
  have hok : Session.failed? (rowSumsProgram.lowering .builtins true).1 = none := by decide +kernel
  ⟨hg, ht, hok, inline_preserves_yields hg ht hok⟩

end LoopModule
end LoopNest
