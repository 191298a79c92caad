import LoopNest.Proofs.Validity

/-! Compilation: all passes in a row. It succeeds just if the declarations are analyzed and stamped,
have carriers and are lowered; the check of the code and that of its inlined form never fail. -/
namespace LoopNest

/-- The results of all passes. -/
structure Compilation where
  analysis : Analysis
  stamped : StampedModule
  carriers : CarrierMap
  code : LoopModule
  inlined : LoopModule

def Compilation.artifacts (c : Compilation) : Artifacts :=
  ⟨some c.analysis, some c.stamped, some c.carriers, some c.code, some c.inlined⟩

/-- The run of a program through all passes. -/
abbrev Program.compilation (p : Program) (registry : Registry) :=
  (Session.ofProgram p registry).run .inline true

/-- Declarations go through all passes, with these results. -/
def Compiles (inputs : InputTable) (registry : Registry) (ds : List (Declaration Span))
    (c : Compilation) : Prop :=
  ∃ g, Graph.ofDeclarations ds = .ok g ∧
    Session.failed? (Program.compilation ⟨inputs, g⟩ registry).1 = none ∧
    (Program.compilation ⟨inputs, g⟩ registry).2.artifacts = c.artifacts

/-- The results come from one another. -/
structure Compilation.Of (c : Compilation) (inputs : InputTable) (registry : Registry) (g : Graph) :
    Prop where
  analysis : Analysis.ofGraph g inputs registry = .ok c.analysis
  stamped : StampedModule.ofGraph g c.analysis registry = .ok c.stamped
  carriers : CarrierMap.ofModule c.stamped = .ok c.carriers
  code : LoopModule.ofStamped c.stamped c.carriers registry = .ok c.code
  inlined : c.inlined = c.code.inline

variable {inputs : InputTable} {registry : Registry} {ds : List (Declaration Span)} {g : Graph}
  {c : Compilation}

theorem Compilation.Of.consistent (h : c.Of inputs registry g)
    (hg : Graph.ofDeclarations ds = .ok g) : c.stamped.Consistent inputs :=
  StampedModule.consistent_ofGraph hg h.analysis h.stamped

theorem Compilation.Of.codes (h : c.Of inputs registry g) (hg : Graph.ofDeclarations ds = .ok g) :
    StampedModule.Codes ⟨c.carriers, registry⟩ false [] c.stamped.decls c.code.decls :=
  StampedModule.codes_ofStamped (h.consistent hg) h.carriers h.code

theorem Compilation.Of.codes_inlined (h : c.Of inputs registry g)
    (hg : Graph.ofDeclarations ds = .ok g) :
    StampedModule.Codes ⟨c.carriers, registry⟩ true [] c.stamped.decls c.inlined.decls :=
  h.inlined ▸ StampedModule.codes_inline (h.codes hg) (h.consistent hg).names

theorem Compilation.Of.names (h : c.Of inputs registry g) (hg : Graph.ofDeclarations ds = .ok g) :
    c.stamped.decls.map StampedDecl.name = ds.map Declaration.name ∧
      c.code.decls.map LoopCode.name = ds.map Declaration.name ∧
      c.inlined.decls.map LoopCode.name = ds.map Declaration.name := by
  have hnames := StampedModule.names_ofGraph hg h.analysis h.stamped
  exact ⟨hnames, (h.codes hg).names.trans hnames, (h.codes_inlined hg).names.trans hnames⟩

theorem Compilation.Of.unique {c' : Compilation} (h : c.Of inputs registry g)
    (h' : c'.Of inputs registry g) : c = c' := by
  obtain ⟨a, sm, carriers, m, i⟩ := c
  obtain ⟨a', sm', carriers', m', i'⟩ := c'
  cases h.analysis.symm.trans h'.analysis
  cases h.stamped.symm.trans h'.stamped
  cases h.carriers.symm.trans h'.carriers
  cases h.code.symm.trans h'.code
  cases h.inlined.trans h'.inlined.symm
  rfl

/-- Where results come from one another, all passes succeed: the checks of code that is lowered
never fail. -/
theorem Compilation.Of.verdict (h : c.Of inputs registry g) (hg : Graph.ofDeclarations ds = .ok g)
    (p : Pass) : Program.verdict ⟨inputs, g⟩ registry p = .ok () := by
  have hs : Program.stamped ⟨inputs, g⟩ registry = .ok c.stamped :=
    Except.bind_eq_ok.2 ⟨_, h.analysis, h.stamped⟩
  have hc : Program.carriers ⟨inputs, g⟩ registry = .ok c.carriers :=
    Except.bind_eq_ok.2 ⟨_, hs, h.carriers⟩
  have hm : Program.code ⟨inputs, g⟩ registry = .ok c.code :=
    (Program.code_of_carriers hs hc).trans h.code
  cases p with
  | analyze => exact Except.map_eq_ok.2 ⟨_, h.analysis, rfl⟩
  | stamp => exact Except.map_eq_ok.2 ⟨_, hs, rfl⟩
  | carriers => exact Except.map_eq_ok.2 ⟨_, hc, rfl⟩
  | lower => exact Except.map_eq_ok.2 ⟨_, hm, rfl⟩
  | verify => exact Except.bind_eq_ok.2 ⟨_, hm, (h.codes hg).check_eq⟩
  | inline =>
    have hcheck : c.code.inline.check = .ok () := h.inlined ▸ (h.codes_inlined hg).check_eq
    have hi : Program.inlined ⟨inputs, g⟩ registry = .ok c.code.inline :=
      Except.bind_eq_ok.2 ⟨_, hm, Except.map_eq_ok.2 ⟨(), hcheck, rfl⟩⟩
    exact Except.map_eq_ok.2 ⟨_, hi, rfl⟩

/-- Where the last pass succeeds, there are results of all passes, and a run leaves them. -/
theorem exists_of_verdict (h : Program.verdict ⟨inputs, g⟩ registry .inline = .ok ()) :
    ∃ c : Compilation, c.Of inputs registry g ∧
      ∀ x : Artifacts, x.renew ⟨inputs, g⟩ registry Pass.all = c.artifacts := by
  obtain ⟨i, hi, -⟩ := Except.map_eq_ok.1 h
  obtain ⟨m, hm, rfl⟩ := Program.inlined_eq_ok hi
  obtain ⟨a, sm, carriers, ha, hs, hc, hsm, hcarriers, hl⟩ := Program.code_eq_ok hm
  refine ⟨⟨a, sm, carriers, m, m.inline⟩, ⟨ha, hsm, hcarriers, hl, rfl⟩, fun x => ?_⟩
  simp [Artifacts.renew, Compilation.artifacts, Pass.all, ha, hs, hc, hm, hi, Except.toOption]

theorem plan_compilation : Session.plan .inline true = Pass.all := by decide

/-- A run through all passes that goes through leaves results that come from one another. -/
theorem artifacts_compilation
    (hok : Session.failed? (Program.compilation ⟨inputs, g⟩ registry).1 = none) :
    ∃ c : Compilation, c.Of inputs registry g ∧
      (Program.compilation ⟨inputs, g⟩ registry).2.artifacts = c.artifacts := by
  have hall := Session.run_ok_iff.1 hok
  rw [plan_compilation] at hall
  obtain ⟨c, hc, hrenew⟩ := exists_of_verdict (hall .inline (by decide))
  refine ⟨c, hc, ?_⟩
  rw [Program.compilation, Session.run_of_ok hok, plan_compilation]
  exact hrenew _

theorem Compilation.artifacts_inj {c c' : Compilation} (h : c.artifacts = c'.artifacts) :
    c = c' := by
  obtain ⟨a, sm, carriers, m, i⟩ := c
  obtain ⟨a', sm', carriers', m', i'⟩ := c'
  cases h
  rfl

theorem compiles_iff : Compiles inputs registry ds c ↔
    ∃ g, Graph.ofDeclarations ds = .ok g ∧ c.Of inputs registry g := by
  constructor
  · rintro ⟨g, hg, hok, hx⟩
    obtain ⟨c', hc', heq⟩ := artifacts_compilation hok
    cases Compilation.artifacts_inj (heq.symm.trans hx)
    exact ⟨g, hg, hc'⟩
  · rintro ⟨g, hg, h⟩
    have hok : Session.failed? (Program.compilation ⟨inputs, g⟩ registry).1 = none :=
      Session.run_ok_iff.2 fun p _ => h.verdict hg p
    obtain ⟨c', hc', heq⟩ := artifacts_compilation hok
    cases h.unique hc'
    exact ⟨g, hg, hok, heq⟩

theorem Compiles.unique {c' : Compilation} (h : Compiles inputs registry ds c)
    (h' : Compiles inputs registry ds c') : c = c' := by
  obtain ⟨g, hg, hc⟩ := compiles_iff.1 h
  obtain ⟨g', hg', hc'⟩ := compiles_iff.1 h'
  cases hg.symm.trans hg'
  exact hc.unique hc'

/-- Where no pass fails, all of them left their results. -/
theorem exists_compiles (hg : Graph.ofDeclarations ds = .ok g)
    (hok : Session.failed? (Program.compilation ⟨inputs, g⟩ registry).1 = none) :
    ∃ c, Compiles inputs registry ds c := by
  obtain ⟨c, -, heq⟩ := artifacts_compilation hok
  exact ⟨c, g, hg, hok, heq⟩

end LoopNest
