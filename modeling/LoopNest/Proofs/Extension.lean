import LoopNest.Proofs.Compilation
import LoopNest.Proofs.Inlining.Order
import LoopNest.Proofs.Lowering.Environment
import LoopNest.Proofs.Stamp.Elaboration

/-! What is added to a program does not change what is there: more inputs and functions leave each
result of compilation as it is, and more declarations behind the others only add to it. -/
namespace LoopNest

theorem Graph.numberFrom_append (next : Nat) (ds ds' : List (Declaration Span)) :
    ∃ next', numberFrom next (ds ++ ds') = numberFrom next ds ++ numberFrom next' ds' := by
  induction ds generalizing next with
  | nil => exact ⟨next, rfl⟩
  | cons d ds ih =>
    obtain ⟨next', h⟩ := ih (d.body.number next).2
    exact ⟨next', by rw [List.cons_append, numberFrom_cons, h]; rfl⟩

theorem Stamping.stampDecls_append {a : Analysis} {registry : Registry} {topo : Nat}
    {c : ModuleCounter} {ds ds' : List (Declaration Node)} {sds : List StampedDecl}
    (h : stampDecls a registry topo c (ds ++ ds') = .ok sds) :
    ∃ first, stampDecls a registry topo c ds = .ok first ∧ first <+: sds := by
  induction ds generalizing topo c sds with
  | nil => exact ⟨[], rfl, List.nil_prefix⟩
  | cons d ds ih =>
    obtain ⟨sd, c₁, rest, hsd, hrest, rfl⟩ := stampDecls_cons_eq_ok.1 h
    obtain ⟨first, hfirst, hprefix⟩ := ih hrest
    exact ⟨sd :: first, stampDecls_cons_eq_ok.2 ⟨sd, c₁, first, hsd, hfirst, rfl⟩,
      (List.prefix_cons_inj sd).2 hprefix⟩

variable {inputs inputs' : InputTable} {registry registry' : Registry}
  {ds ds' : List (Declaration Span)} {c c' : Compilation}

/-- With more inputs and functions declarations compile to the very same. -/
theorem Compiles.within (h : Compiles inputs registry ds c) (hi : inputs.Within inputs')
    (hf : registry.Within registry') : Compiles inputs' registry' ds c := by
  obtain ⟨g, hg, hc⟩ := compiles_iff.1 h
  refine compiles_iff.2 ⟨g, hg, ?_⟩
  have hknows : c.analysis.Knows c.analysis.nodes :=
    fun _ hp => Analysis.node?_of_mem hg hc.analysis hp
  obtain ⟨-, rfl⟩ := StampedModule.ofDeclarations_eq_ok.1 hg
  obtain ⟨hanalysis, hstamp⟩ := Stamping.extend_within hi hf hc.analysis
  obtain ⟨sds, hs, hsm⟩ := Except.bind_eq_ok.1 hc.stamped
  obtain ⟨cs, hcs, hm⟩ := Except.bind_eq_ok.1 hc.code
  have hcs' := mapM_eq_ok.2 ((mapM_eq_ok.1 hcs).imp fun d code hcode =>
    LoopCode.ofDecl_within (.refl _) hf hcode)
  exact ⟨hanalysis, Except.bind_eq_ok.2 ⟨sds, hstamp _ _ _ _ _ hknows hknows hs, hsm⟩, hc.carriers,
    Except.bind_eq_ok.2 ⟨cs, hcs', hm⟩, hc.inlined⟩

/-- The results for declarations come first among those for more declarations. -/
structure Compilation.Begins (c c' : Compilation) : Prop where
  stamped : c.stamped.decls <+: c'.stamped.decls
  carriers : c.carriers.Within c'.carriers
  code : c.code.decls <+: c'.code.decls
  inlined : c.inlined.decls <+: c'.inlined.decls

theorem Compiles.begins (h : Compiles inputs registry ds c)
    (h' : Compiles inputs registry (ds ++ ds') c') : c.Begins c' := by
  obtain ⟨g, hg, hc⟩ := compiles_iff.1 h
  obtain ⟨g', hg', hc'⟩ := compiles_iff.1 h'
  have hknows : c.analysis.Knows c.analysis.nodes :=
    fun _ hp => Analysis.node?_of_mem hg hc.analysis hp
  have hknows' : c'.analysis.Knows c'.analysis.nodes :=
    fun _ hp => Analysis.node?_of_mem hg' hc'.analysis hp
  obtain ⟨-, rfl⟩ := StampedModule.ofDeclarations_eq_ok.1 hg
  obtain ⟨-, rfl⟩ := StampedModule.ofDeclarations_eq_ok.1 hg'
  obtain ⟨next, hnumber⟩ := Graph.numberFrom_append 0 ds ds'
  have hanalysis' := hc'.analysis
  rw [Analysis.ofGraph, hnumber] at hanalysis'
  obtain ⟨a, ha, hrest⟩ := Analysis.extend_append hanalysis'
  cases hc.analysis.symm.trans ha
  -- the stamps
  obtain ⟨sds, hs, hsm⟩ := Except.bind_eq_ok.1 hc.stamped
  obtain ⟨sds', hs', hsm'⟩ := Except.bind_eq_ok.1 hc'.stamped
  rw [hnumber] at hs'
  obtain ⟨first, hfirst, hprefix⟩ := Stamping.stampDecls_append hs'
  have hstamp := (Stamping.extend_within (.refl _) (.refl _) hc.analysis).2 _ c'.analysis _ _ _
    hknows (fun p hp => hknows' p (Analysis.nodes_subset_of_extend hrest hp)) hs
  cases hfirst.symm.trans hstamp
  have hstamped : c.stamped.decls <+: c'.stamped.decls := by
    rw [← Except.ok.inj hsm, ← Except.ok.inj hsm']
    exact hprefix
  -- the carriers
  have hcarriers : c.carriers.Within c'.carriers := by
    refine (CarrierMap.records_ofModule hc.carriers).within
      (CarrierMap.records_ofModule hc'.carriers) fun u hu => ?_
    obtain ⟨d, hd, hu⟩ := List.mem_flatMap.1 hu
    exact List.mem_flatMap.2 ⟨d, hstamped.subset hd, hu⟩
  -- the code
  obtain ⟨cs, hcs, hm⟩ := Except.bind_eq_ok.1 hc.code
  obtain ⟨cs', hcs', hm'⟩ := Except.bind_eq_ok.1 hc'.code
  have hcode : c.code.decls <+: c'.code.decls := by
    rw [← Except.ok.inj hm, ← Except.ok.inj hm']
    exact mapM_prefix hcs hcs' hstamped fun d code hd =>
      LoopCode.ofDecl_within hcarriers (.refl _) hd
  refine ⟨hstamped, hcarriers, hcode, ?_⟩
  -- the inlined code
  obtain ⟨rest, heq⟩ := hcode
  rw [hc.inlined, hc'.inlined, LoopModule.inline, LoopModule.inline, ← heq,
    Inlining.inlineFrom_append]
  exact List.prefix_append _ _

theorem find?_of_prefix {β : Type} {title : β → String} {bs bs' : List β} (h : bs <+: bs')
    {n : String} (hn : n ∈ bs.map title) :
    ∃ b, (bs.find? fun b => title b == n) = some b ∧
      (bs'.find? fun b => title b == n) = some b := by
  obtain ⟨rest, rfl⟩ := h
  obtain ⟨b, hb, rfl⟩ := List.mem_map.1 hn
  rw [find?_title_append hn]
  cases hfind : bs.find? fun b' => title b' == title b with
  | none => exact absurd (beq_self_eq_true _) (List.find?_eq_none.1 hfind b hb)
  | some b' => exact ⟨b', rfl, rfl⟩

/-- Declarations that compile do so with more inputs and functions, to the very same. With more
declarations behind them, each still becomes the same, and its carriers stay. -/
theorem compile_stable_under_extension (h : Compiles inputs registry ds c)
    (hi : inputs.Within inputs') (hf : registry.Within registry') :
    Compiles inputs' registry' ds c ∧
      ∀ ds' c', Compiles inputs' registry' (ds ++ ds') c' →
        c.carriers.Within c'.carriers ∧
        ∀ d ∈ ds, ∃ stamped code inlined,
          c.stamped.find? d.name = some stamped ∧ c'.stamped.find? d.name = some stamped ∧
          c.code.find? d.name = some code ∧ c'.code.find? d.name = some code ∧
          c.inlined.find? d.name = some inlined ∧ c'.inlined.find? d.name = some inlined := by
  have hmore := h.within hi hf
  refine ⟨hmore, fun ds' c' h' => ?_⟩
  have hbegins := hmore.begins h'
  obtain ⟨g, hg, hc⟩ := compiles_iff.1 h
  obtain ⟨hnames, hnames', hnames''⟩ := hc.names hg
  refine ⟨hbegins.carriers, fun d hd => ?_⟩
  have hname := List.mem_map_of_mem (f := Declaration.name) hd
  obtain ⟨stamped, hs, hs'⟩ := find?_of_prefix hbegins.stamped (hnames ▸ hname)
  obtain ⟨code, hl, hl'⟩ := find?_of_prefix hbegins.code (hnames' ▸ hname)
  obtain ⟨inlined, hi, hi'⟩ := find?_of_prefix hbegins.inlined (hnames'' ▸ hname)
  exact ⟨stamped, code, inlined, hs, hs', hl, hl', hi, hi'⟩

/-- A function of two numbers. -/
def mean : Signature := Registry.binary "mean" .promote

def meanManifest : String := "[[[\"mean\",\"elementwise\",[\"left\",\"right\"],false,\"promote\"]]]"

theorem load_meanManifest :
    Registry.builtins.load meanManifest = (.ok 1, Registry.builtins.addAll [mean]) := by
  have hread : Manifest.ofText? meanManifest = some [mean] := by decide +kernel
  have hnew : Registry.builtins.firstDuplicate? [] [mean] = none := by decide +kernel
  rw [Registry.load_eq, hread]
  simp only [hnew]
  rfl

/-- The inputs of the row sums with the width of each row and with tags. -/
def taggedInputs : InputTable :=
  (LoopModule.rowSumsProgram.inputs.put ⟨["rows", "width"], [⟨"row"⟩], .float, .zero⟩).put
    ⟨["tags"], [⟨"tag"⟩], .string, .zero⟩

/-- More declarations, with the new inputs and with the function of the manifest. -/
def taggedMeans : List (Declaration Span) :=
  [⟨"center", .value, .call .zero "mean" [.ref .zero "total", .input .zero ["rows", "width"]],
      .zero⟩,
    ⟨"label", .value, .input .zero ["tags"], .zero⟩]

theorem rowSums_stable_under_extension :
    ∃ r c c', Registry.builtins.load meanManifest = (.ok 1, r) ∧
      LoopModule.rowSumsProgram.inputs.Within taggedInputs ∧ Registry.builtins.Within r ∧
      Compiles LoopModule.rowSumsProgram.inputs .builtins LoopModule.rowSums c ∧
      Compiles taggedInputs r LoopModule.rowSums c ∧
      Compiles taggedInputs r (LoopModule.rowSums ++ taggedMeans) c' ∧
      c.carriers.Within c'.carriers ∧
      ∀ d ∈ LoopModule.rowSums, ∃ stamped code inlined,
        c.stamped.find? d.name = some stamped ∧ c'.stamped.find? d.name = some stamped ∧
        c.code.find? d.name = some code ∧ c'.code.find? d.name = some code ∧
        c.inlined.find? d.name = some inlined ∧ c'.inlined.find? d.name = some inlined := by
  have hi : LoopModule.rowSumsProgram.inputs.Within taggedInputs :=
    ((OrderedMap.Within.refl _).insert (by decide +kernel) _).insert (by decide +kernel) _
  have hf := Registry.within_load load_meanManifest
  obtain ⟨c, hc⟩ : ∃ c, Compiles LoopModule.rowSumsProgram.inputs .builtins LoopModule.rowSums c :=
    exists_compiles rfl (by decide +kernel)
  obtain ⟨c', hc'⟩ : ∃ c', Compiles taggedInputs (Registry.builtins.addAll [mean])
      (LoopModule.rowSums ++ taggedMeans) c' := exists_compiles rfl (by decide +kernel)
  obtain ⟨hsame, hmore⟩ := compile_stable_under_extension hc hi hf
  exact ⟨_, c, c', load_meanManifest, hi, hf, hc, hsame, hc', hmore taggedMeans c' hc'⟩

end LoopNest
