import LoopNest.Proofs.Agreement

/-! Anchors. A loop on the way to an expression takes its carrier from the first input below that is
long enough, and only then from the map of the module. Since the map is built from all inputs of
the module, both ways lead to the same carrier. -/
namespace LoopNest

theorem StampedExpr.inputUses_subset {x e : StampedExpr} (h : x ∈ e.postorder) :
    inputUses x ⊆ inputUses e := by
  intro u hu
  obtain ⟨m, path, hmem, rfl⟩ := mem_inputUses.1 hu
  exact mem_inputUses.2 ⟨m, path, Expr.postorder_subset e h hmem, rfl⟩

namespace Carrier

/-- An input below the expression varies over the axes. -/
def Anchored (axes : Axes) (e : StampedExpr) : Prop :=
  ∃ m path, .input m path ∈ e.postorder ∧ axes <+: m.stamp.axes

theorem anchored_iff {axes : Axes} {e : StampedExpr} : Anchored axes e ↔ anchors axes e ≠ [] := by
  constructor
  · rintro ⟨m, path, hmem, haxes⟩
    exact List.ne_nil_of_mem (List.mem_filter.2
      ⟨StampedExpr.mem_inputUses.2 ⟨m, path, hmem, rfl⟩, List.isPrefixOf_iff_prefix.2 haxes⟩)
  · intro hne
    obtain ⟨u, hu⟩ := List.exists_mem_of_ne_nil _ hne
    obtain ⟨huse, haxes⟩ := List.mem_filter.1 hu
    obtain ⟨m, path, hmem, rfl⟩ := StampedExpr.mem_inputUses.1 huse
    exact ⟨m, path, hmem, List.isPrefixOf_iff_prefix.1 haxes⟩

/-- Where there is no carrier, the code says whether an input varies over the axes. -/
theorem code_of_choose {axes : Axes} {e : StampedExpr} {carriers : CarrierMap} {d : Diagnostic}
    (h : choose axes e carriers = .error d) :
    (d.code.map Code.text = some "E0301" ↔ Anchored axes e) ∧
      (d.code.map Code.text = some "E0302" ↔ ¬Anchored axes e) := by
  rw [(choose_eq_error h).2, anchored_iff]
  by_cases hnil : anchors axes e = []
  · simp [hnil, Code.text]
  · simp [hnil, Code.text]

/-- The carrier of an expression of a module is the one that the module has. It has none just where
the map has none; the code then says whether an input below varies over the axes. -/
theorem choose_agrees_with_map {sm : StampedModule} {carriers : CarrierMap}
    (hm : CarrierMap.ofModule sm = .ok carriers) {d : StampedDecl} (hd : d ∈ sm.decls)
    {e : StampedExpr} (he : e ∈ d.body.postorder) {axes : Axes} (hne : axes ≠ []) :
    (∀ path, choose axes e carriers = .ok path ↔ carriers.find? axes = some path) ∧
    ∀ fault, choose axes e carriers = .error fault → carriers.find? axes = none ∧
      (fault.code.map Code.text = some "E0301" ↔ Anchored axes e) ∧
      (fault.code.map Code.text = some "E0302" ↔ ¬Anchored axes e) := by
  have hrecords := CarrierMap.records_ofModule hm
  have huses : StampedExpr.inputUses e ⊆ sm.inputUses := fun u hu =>
    List.mem_flatMap.2 ⟨d, hd, StampedExpr.inputUses_subset he hu⟩
  refine ⟨fun path => ⟨find?_of_choose hrecords huses hne, choose_of_find? hrecords huses⟩, ?_⟩
  intro fault hfault
  exact ⟨(choose_eq_error hfault).1, code_of_choose hfault⟩

/-- An input over axes, under a path. -/
def reading (axes path : List String) : StampedExpr :=
  .input ⟨⟨0⟩, ⟨0⟩, 0, ⟨.ofNames axes, .float⟩, none, .zero⟩ path

/-- The weight of a row is given for each of its cells, and a cell has bits, but neither path is
long enough to carry these. -/
def weighedCells : StampedDecl :=
  let body := Expr.tuple (reading [] []).note
    [reading ["row", "cell"] ["weights"], reading ["row", "cell", "bit"] ["weights", "cells"]]
  ⟨"weighed", .value, body, body.note.stamp, 0, .zero⟩

/-- The first weight in the way is too short, and the module has a carrier for the cells. Nothing
carries the bits, and nothing varies over columns. -/
theorem weighedCells_choose_agrees :
    ∃ carriers, CarrierMap.ofModule ⟨[weighedCells]⟩ = .ok carriers ∧
      choose (.ofNames ["row", "cell"]) (reading ["row", "cell"] ["weights"]) carriers =
        .ok ["weights", "cells"] ∧
      (∃ fault, choose (.ofNames ["row", "cell", "bit"]) weighedCells.body carriers =
        .error fault ∧ fault.code.map Code.text = some "E0301") ∧
      ∃ fault, choose (.ofNames ["column"]) weighedCells.body carriers = .error fault ∧
        fault.code.map Code.text = some "E0302" := by
  obtain ⟨carriers, hm, hfind⟩ : ∃ carriers, CarrierMap.ofModule ⟨[weighedCells]⟩ = .ok carriers ∧
      decide (carriers.find? (.ofNames ["row", "cell"]) = some ["weights", "cells"] ∧
        carriers.find? (.ofNames ["row", "cell", "bit"]) = none ∧
        carriers.find? (.ofNames ["column"]) = none) = true :=
    Except.exists_of_any (by decide +kernel)
  obtain ⟨hcells, hbits, hcolumn⟩ := of_decide_eq_true hfind
  have hd : weighedCells ∈ (StampedModule.mk [weighedCells]).decls := List.mem_singleton.2 rfl
  have hbody : weighedCells.body ∈ weighedCells.body.postorder := by
    simp [weighedCells, Expr.postorder]
  have hweight : reading ["row", "cell"] ["weights"] ∈ weighedCells.body.postorder := by
    simp [weighedCells, Expr.postorder, Expr.postorderAll, reading]
  refine ⟨carriers, hm, ?_, ?_, ?_⟩
  · exact ((choose_agrees_with_map hm hd hweight (by decide)).1 _).2 hcells
  · obtain ⟨hok, herror⟩ := choose_agrees_with_map hm hd hbody
      (show Axes.ofNames ["row", "cell", "bit"] ≠ [] by decide)
    cases hc : choose (.ofNames ["row", "cell", "bit"]) weighedCells.body carriers with
    | ok path => cases hbits.symm.trans ((hok path).1 hc)
    | error fault =>
      exact ⟨fault, rfl, (herror fault hc).2.1.2 (anchored_iff.2 (by decide +kernel))⟩
  · obtain ⟨hok, herror⟩ := choose_agrees_with_map hm hd hbody
      (show Axes.ofNames ["column"] ≠ [] by decide)
    cases hc : choose (.ofNames ["column"]) weighedCells.body carriers with
    | ok path => cases hcolumn.symm.trans ((hok path).1 hc)
    | error fault =>
      refine ⟨fault, rfl, (herror fault hc).2.2.2 fun h => anchored_iff.1 h ?_⟩
      decide +kernel

end Carrier
end LoopNest
