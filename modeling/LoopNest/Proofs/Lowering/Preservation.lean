import LoopNest.Proofs.Pipeline
import LoopNest.Proofs.Semantics.Denotation

/-! Lowering keeps the meaning of a module: on data that has the arrays which the inputs ask for,
the code of each declaration yields what the declaration denotes. -/
namespace LoopNest
namespace LoopModule

/-- The code of a module yields what its declarations denote, at all indices of their axes in
lexicographic order. -/
theorem ofStamped_yields_denotations {ds : List (Declaration Span)} {g : Graph}
    {inputs : InputTable} {registry : Registry} {a : Analysis} {sm : StampedModule}
    {carriers : CarrierMap} {m : LoopModule}
    (hg : Graph.ofDeclarations ds = .ok g) (ht : inputs.TokensDistinct)
    (ha : Analysis.ofGraph g inputs registry = .ok a)
    (hsm : StampedModule.ofGraph g a registry = .ok sm) (hm : CarrierMap.ofModule sm = .ok carriers)
    (hl : ofStamped sm carriers registry = .ok m) {interp : Interpretation} {data : Json}
    (hd : (sm.setting registry interp data).Conforms) :
    m.evaluate interp data = some (sm.table (sm.setting registry interp data)) ∧
      ∀ d ∈ sm.decls,
        let indices := (sm.setting registry interp data).indices d.stamp.axes
        indices.Pairwise (· < ·) ∧ ∀ is, is ∈ indices ↔ is.length = d.stamp.axes.length ∧
          ∀ k i, is[k]? = some i →
            i < data.extent (sm.setting registry interp data).carrier? (d.stamp.axes.take (k + 1))
              (is.take k) := by
  have hc := StampedModule.consistent_ofGraph hg ha hsm
  exact ⟨hc.evaluate_eq_table ht hm (StampedModule.codes_ofStamped hc hm hl) hd,
    fun d _ => ⟨data.pairwise_tuples _ _ _ _, fun is => Json.mem_tuples⟩⟩

/-- Sums of the cells of each row, weighted, and their sum. -/
def weighted : List (Declaration Span) :=
  [⟨"row_sum", .value, .reduce .zero "sum" none (.call .zero "multiply"
      [.input .zero ["rows", "cells"], .input .zero ["rows", "weight"]]), .zero⟩,
    ⟨"all", .value, .reduce .zero "sum" none (.ref .zero "row_sum"), .zero⟩]

def weightedProgram : Program where
  inputs := (InputTable.put .empty ⟨["rows", "cells"], [⟨"row"⟩, ⟨"cell"⟩], .integer, .zero⟩).put
    ⟨["rows", "weight"], [⟨"row"⟩], .integer, .zero⟩
  graph := ⟨Graph.numberFrom 0 weighted⟩

/-- Two rows, the second one of which is empty. -/
def weightedData : Json :=
  .object [(some "rows", .array [
    .object [(some "weight", .number "2"), (some "cells", .array [.number "1", .number "3"])],
    .object [(some "weight", .number "5"), (some "cells", .array [])]])]

/-- Operations that only note what they are given. -/
def noting : Interpretation where
  kernel name args := .array (.text name :: args)
  tuple := .array
  truth := Json.isArray
  reduce name total v := .array [.text name, total, v]

theorem weighted_yields_denotations :
    ∃ a sm carriers m, Graph.ofDeclarations weighted = .ok weightedProgram.graph ∧
      weightedProgram.inputs.TokensDistinct ∧
      Analysis.ofGraph weightedProgram.graph weightedProgram.inputs .builtins = .ok a ∧
      StampedModule.ofGraph weightedProgram.graph a .builtins = .ok sm ∧
      CarrierMap.ofModule sm = .ok carriers ∧ ofStamped sm carriers .builtins = .ok m ∧
      (sm.setting .builtins noting weightedData).Conforms ∧
      m.evaluate noting weightedData =
        some (sm.table (sm.setting .builtins noting weightedData)) := by
  have hok : Session.failed? (weightedProgram.lowering .builtins false).1 = none := by
    decide +kernel
  obtain ⟨a, sm, carriers, m, ha, hsm, hm, hl, -⟩ := Session.run_lower hok
  have huses :
      ((Analysis.ofGraph weightedProgram.graph weightedProgram.inputs .builtins).toOption.bind
        fun a => (StampedModule.ofGraph weightedProgram.graph a .builtins).toOption).map
          StampedModule.inputUses =
        some [⟨["rows", "cells"], [⟨"row"⟩, ⟨"cell"⟩], .zero⟩,
          ⟨["rows", "weight"], [⟨"row"⟩], .zero⟩] := by
    decide +kernel
  rw [ha] at huses
  change (StampedModule.ofGraph weightedProgram.graph a .builtins).toOption.map _ = _ at huses
  rw [hsm] at huses
  have huses := Option.some.inj huses
  have hd : (sm.setting .builtins noting weightedData).Conforms := by
    rw [StampedModule.setting, huses]
    decide +kernel
  have ht : weightedProgram.inputs.TokensDistinct := by decide
  have hg : Graph.ofDeclarations weighted = .ok weightedProgram.graph := rfl
  exact ⟨a, sm, carriers, m, hg, ht, ha, hsm, hm, hl, hd,
    (ofStamped_yields_denotations hg ht ha hsm hm hl hd).1⟩

end LoopModule
end LoopNest
