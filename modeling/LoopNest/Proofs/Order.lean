import LoopNest.Proofs.Compilation
import LoopNest.Proofs.Inlining.Order
import LoopNest.Proofs.Lowering.Environment
import LoopNest.Proofs.Stamp.Elaboration

/-! The order of declarations does not matter for what each of them becomes, as long as what a
declaration refers to comes before it. -/
namespace LoopNest

variable {inputs : InputTable} {registry : Registry} {ds ds' : List (Declaration Span)}

/-- Each reference names a declaration that comes before. -/
def ReferencesFirst (ds : List (Declaration Span)) : Prop :=
  Ordered Declaration.name (fun d => d.body.references) [] ds

instance (ds : List (Declaration Span)) : Decidable (ReferencesFirst ds) :=
  inferInstanceAs (Decidable (Ordered _ _ _ _))

theorem StampedModule.inputUses_perm {sm sm' : StampedModule}
    (h : (sm.decls.map StampedDecl.unnumbered).Perm (sm'.decls.map StampedDecl.unnumbered)) :
    sm.inputUses.Perm sm'.inputUses := by
  have huses : ∀ m : StampedModule, m.inputUses =
      (m.decls.map StampedDecl.unnumbered).flatMap fun d => StampedExpr.inputUses d.body := by
    intro m
    rw [inputUses, List.flatMap_map]
    exact List.flatMap_congr fun d _ => (StampedExpr.inputUses_unnumbered d.body).symm
  rw [huses, huses]
  exact h.flatMap_right _

theorem CarrierMap.ofModule_perm {sm sm' : StampedModule} (h : sm.inputUses.Perm sm'.inputUses)
    {m : CarrierMap} (hm : ofModule sm = .ok m) : ofModule sm' = .ok m := by
  have hcoherent : Coherent sm'.inputUses := by
    intro u hu v hv
    exact exists_ofModule_iff.1 ⟨m, hm⟩ u (h.mem_iff.2 hu) v (h.mem_iff.2 hv)
  obtain ⟨m', hm'⟩ := exists_ofModule_iff.2 hcoherent
  have hrecords := records_ofModule hm
  have hrecords' := records_ofModule hm'
  rw [hm', (hrecords.within hrecords' h.subset).antisymm (hrecords'.within hrecords h.symm.subset)]

theorem LoopModule.ofStamped_perm {sm sm' : StampedModule}
    (h : (sm.decls.map StampedDecl.unnumbered).Perm (sm'.decls.map StampedDecl.unnumbered))
    {carriers : CarrierMap} {m : LoopModule} (hm : ofStamped sm carriers registry = .ok m) :
    ∃ m', ofStamped sm' carriers registry = .ok m' ∧ m.decls.Perm m'.decls := by
  have hplain : ∀ (ds : List StampedDecl) (cs : List LoopCode),
      List.Forall₂ (fun d c => LoopCode.ofDecl d carriers registry = .ok c)
        (ds.map StampedDecl.unnumbered) cs ↔
      List.Forall₂ (fun d c => LoopCode.ofDecl d carriers registry = .ok c) ds cs := by
    intro ds cs
    simp only [List.forall₂_map_left_iff, LoopCode.ofDecl_unnumbered]
  obtain ⟨cs, hcs, hm⟩ := Except.bind_eq_ok.1 hm
  cases hm
  have hall := (hplain _ _).2 (mapM_eq_ok.1 hcs)
  obtain ⟨cs', hall', hperm⟩ := List.perm_comp_forall₂ h.symm hall
  exact ⟨⟨cs'⟩, Except.bind_eq_ok.2 ⟨cs', mapM_eq_ok.2 ((hplain _ _).1 hall'), rfl⟩, hperm.symm⟩

/-- Declarations in another order compile to the same carriers and to the same code, in that
order. -/
theorem Compiles.perm {c : Compilation} (h : Compiles inputs registry ds c) (hp : ds.Perm ds')
    (ho : ReferencesFirst ds) (ho' : ReferencesFirst ds') :
    ∃ c', Compiles inputs registry ds' c' ∧ c.carriers = c'.carriers ∧
      c.code.decls.Perm c'.code.decls ∧ c.inlined.decls.Perm c'.inlined.decls := by
  obtain ⟨g, hg, hc⟩ := compiles_iff.1 h
  obtain ⟨hn, -⟩ := StampedModule.ofDeclarations_eq_ok.1 hg
  have hn' : (ds'.map Declaration.name).Nodup := (hp.map _).nodup_iff.1 hn
  obtain ⟨g', hg'⟩ : ∃ g', Graph.ofDeclarations ds' = .ok g' :=
    ⟨_, StampedModule.ofDeclarations_eq_ok.2 ⟨hn', rfl⟩⟩
  -- the stamps
  have hs := StampedModule.succession_ofGraph hg hc.analysis hc.stamped
  obtain ⟨us', hs', hus⟩ := Stamping.elaborates_byName.succession_perm hs hp hn ho ho'
  obtain ⟨a', sm', ha', hsm', rfl⟩ := StampedModule.exists_ofGraph hg' hs'
  -- the carriers and the code
  have hcarriers := CarrierMap.ofModule_perm (StampedModule.inputUses_perm hus) hc.carriers
  obtain ⟨m', hm', hcode⟩ := LoopModule.ofStamped_perm hus hc.code
  have hc' : Compilation.Of ⟨a', sm', c.carriers, m', m'.inline⟩ inputs registry g' :=
    ⟨ha', hsm', hcarriers, hm', rfl⟩
  refine ⟨_, compiles_iff.2 ⟨g', hg', hc'⟩, rfl, hcode, ?_⟩
  -- the inlined code
  have hnames : (c.code.decls.map LoopCode.name).Nodup :=
    (hc.codes hg).names ▸ (hc.consistent hg).names
  rw [hc.inlined]
  exact Inlining.inlineFrom_perm hcode hnames (hc.codes hg).ordered (hc'.codes hg').ordered

theorem LoopModule.exists_find? {m m' : LoopModule} (hp : m.decls.Perm m'.decls)
    (hn : (m.decls.map LoopCode.name).Nodup) {name : String}
    (hname : name ∈ m.decls.map LoopCode.name) :
    ∃ c, m.find? name = some c ∧ m'.find? name = some c := by
  obtain ⟨c, hc, rfl⟩ := List.mem_map.1 hname
  have hfind : m.find? c.name = some c := (find?_title_eq_some_iff hn).2 ⟨hc, rfl⟩
  exact ⟨c, hfind, (find?_title_perm hp hn c.name).symm.trans hfind⟩

/-- Declarations in another order compile just as well, with the same carriers, and each of them
to the same code, before and after inlining. -/
theorem compile_independent_of_order (inputs : InputTable) (registry : Registry)
    (hp : ds.Perm ds') (ho : ReferencesFirst ds) (ho' : ReferencesFirst ds') :
    ((∃ c, Compiles inputs registry ds c) ↔ ∃ c, Compiles inputs registry ds' c) ∧
      ∀ c c', Compiles inputs registry ds c → Compiles inputs registry ds' c' →
        c.carriers = c'.carriers ∧
        ∀ d ∈ ds, ∃ code inlined, c.code.find? d.name = some code ∧
          c'.code.find? d.name = some code ∧ c.inlined.find? d.name = some inlined ∧
          c'.inlined.find? d.name = some inlined := by
  refine ⟨⟨fun ⟨c, h⟩ => ?_, fun ⟨c, h⟩ => ?_⟩, fun c c' h h' => ?_⟩
  · obtain ⟨c', h', -⟩ := h.perm hp ho ho'
    exact ⟨c', h'⟩
  · obtain ⟨c', h', -⟩ := h.perm hp.symm ho' ho
    exact ⟨c', h'⟩
  · obtain ⟨c'', h'', hcarriers, hcode, hinlined⟩ := h.perm hp ho ho'
    cases h''.unique h'
    obtain ⟨g, hg, hc⟩ := compiles_iff.1 h
    obtain ⟨hn, -⟩ := StampedModule.ofDeclarations_eq_ok.1 hg
    obtain ⟨-, hnames, hnames'⟩ := hc.names hg
    refine ⟨hcarriers, fun d hd => ?_⟩
    have hname := List.mem_map_of_mem (f := Declaration.name) hd
    obtain ⟨code, hfind, hfind'⟩ :=
      LoopModule.exists_find? hcode (hnames ▸ hn) (hnames ▸ hname)
    obtain ⟨inlined, hfind₁, hfind₁'⟩ :=
      LoopModule.exists_find? hinlined (hnames' ▸ hn) (hnames' ▸ hname)
    exact ⟨code, inlined, hfind, hfind', hfind₁, hfind₁'⟩

/-- The sum of each row. -/
def rowTotal : Declaration Span :=
  ⟨"total", .value, .reduce .zero "sum" none (.input .zero ["rows", "cells"]), .zero⟩

/-- The number of cells of each row. -/
def rowCells : Declaration Span :=
  ⟨"cells", .value, .reduce .zero "count" none (.input .zero ["rows", "cells"]), .zero⟩

/-- Both of them in pairs. -/
def rowPair : Declaration Span :=
  ⟨"pair", .value, .tuple .zero [.ref .zero "total", .ref .zero "cells"], .zero⟩

theorem rowPair_independent_of_order :
    [rowTotal, rowCells, rowPair].Perm [rowCells, rowTotal, rowPair] ∧
      ReferencesFirst [rowTotal, rowCells, rowPair] ∧
      ReferencesFirst [rowCells, rowTotal, rowPair] ∧
      ∃ c c', Compiles LoopModule.rowSumsProgram.inputs .builtins [rowTotal, rowCells, rowPair] c ∧
        Compiles LoopModule.rowSumsProgram.inputs .builtins [rowCells, rowTotal, rowPair] c' ∧
        c.carriers = c'.carriers ∧
        ∀ d ∈ [rowTotal, rowCells, rowPair], ∃ code inlined, c.code.find? d.name = some code ∧
          c'.code.find? d.name = some code ∧ c.inlined.find? d.name = some inlined ∧
          c'.inlined.find? d.name = some inlined := by
  have hp : [rowTotal, rowCells, rowPair].Perm [rowCells, rowTotal, rowPair] := .swap _ _ _
  have ho : ReferencesFirst [rowTotal, rowCells, rowPair] := by decide
  have ho' : ReferencesFirst [rowCells, rowTotal, rowPair] := by decide
  have horder := compile_independent_of_order LoopModule.rowSumsProgram.inputs .builtins hp ho ho'
  obtain ⟨c, hc⟩ : ∃ c, Compiles LoopModule.rowSumsProgram.inputs .builtins
      [rowTotal, rowCells, rowPair] c := exists_compiles rfl (by decide +kernel)
  obtain ⟨c', hc'⟩ := horder.1.1 ⟨c, hc⟩
  exact ⟨hp, ho, ho', c, c', hc, hc', horder.2 c c' hc hc'⟩

end LoopNest
