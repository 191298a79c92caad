import LoopNest.Proofs.Compilation
import LoopNest.Proofs.Lowering.Typing

/-! Compiled code is well typed, as it is lowered and as it is inlined. -/
namespace LoopNest

/-- The name of a declaration, with its axes and its type. -/
def LoopCode.header (c : LoopCode) : String × Axes × DType := (c.name, c.axes, c.dtype)

def StampedDecl.header (d : StampedDecl) : String × Axes × DType :=
  (d.name, d.stamp.axes, d.stamp.dtype)

theorem LoopCode.header_ofDecl {d : StampedDecl} {carriers : CarrierMap} {registry : Registry}
    {c : LoopCode} (h : ofDecl d carriers registry = .ok c) : c.header = d.header := by
  rw [ofDecl] at h
  split at h
  · cases h
  · cases h
    rfl

namespace LoopModule

theorem signature?_eq_lookup (m : LoopModule) (name : String) :
    m.signature? name = (m.decls.map LoopCode.header).lookup name :=
  (lookup_map_pair LoopCode.name (fun c => (c.axes, c.dtype)) m.decls name).symm

theorem headers_ofStamped {sm : StampedModule} {carriers : CarrierMap} {registry : Registry}
    {m : LoopModule} (h : ofStamped sm carriers registry = .ok m) :
    m.decls.map LoopCode.header = sm.decls.map StampedDecl.header := by
  obtain ⟨cs, hcs, h⟩ := Except.bind_eq_ok.1 h
  cases h
  have hsame : List.Forall₂ (· = ·) (sm.decls.map StampedDecl.header) (cs.map LoopCode.header) := by
    rw [List.forall₂_map_left_iff, List.forall₂_map_right_iff]
    exact (mapM_eq_ok.1 hcs).imp fun d c hd => (LoopCode.header_ofDecl hd).symm
  rw [List.forall₂_eq_eq_eq] at hsame
  exact hsame.symm

theorem headers_inlineFrom (done cs : List LoopCode) :
    (Inlining.inlineFrom done cs).map LoopCode.header = cs.map LoopCode.header := by
  induction cs generalizing done with
  | nil => rfl
  | cons c cs ih =>
    rw [Inlining.inlineFrom, List.map_cons, List.map_cons, ih]
    rfl

end LoopModule

namespace StampedModule

variable {inputs : InputTable} {registry : Registry}

/-- The types of a declaration also follow from the stamps of all declarations. -/
theorem TypedFrom.of_mem {known : List (String × Stamp)} {ds : List StampedDecl}
    (h : TypedFrom inputs registry known ds) {d : StampedDecl} (hd : d ∈ ds) :
    d.body.Typed inputs registry (known ++ stamps ds) := by
  induction ds generalizing known with
  | nil => cases hd
  | cons d' ds ih =>
    rcases List.mem_cons.1 hd with rfl | hd
    · refine h.1.mono fun name stamp hlookup => ?_
      rw [List.lookup_append, hlookup, Option.some_or]
    · have hrest := ih h.2 hd
      rwa [List.append_assoc] at hrest

/-- Where the code has the headers of the declarations, all bodies are declared. -/
theorem declared_of_headers {sm : StampedModule} {m : LoopModule}
    (hc : sm.Consistent inputs) (ht : TypedFrom inputs registry [] sm.decls)
    (hm : m.decls.map LoopCode.header = sm.decls.map StampedDecl.header) :
    ∀ d ∈ sm.decls, d.body.Declared inputs registry (stamps sm.decls) m d.name := by
  intro d hd
  obtain ⟨-, -, hstamp⟩ := hc.bodies.exists_of_mem hd
  refine ⟨ht.of_mem hd, ?_, ?_⟩
  · refine lookup_eq_some_of_nodup ?_ (List.mem_map.2 ⟨d, hd, by rw [hstamp]⟩)
    rw [stamps, List.map_map]
    exact hc.names
  · rw [LoopModule.signature?_eq_lookup, hm]
    refine lookup_eq_some_of_nodup ?_ (List.mem_map.2 ⟨d, hd, ?_⟩)
    · rw [List.map_map]
      exact hc.names
    · rw [StampedDecl.header, hstamp]
      rfl

/-- Code with the headers of the declarations is well typed. -/
theorem Codes.wellTyped_of_headers {sm : StampedModule} {m : LoopModule} {carriers : CarrierMap}
    {inlined : Bool} (h : Codes ⟨carriers, registry⟩ inlined [] sm.decls m.decls)
    (hc : sm.Consistent inputs) (ht : TypedFrom inputs registry [] sm.decls)
    (hm : m.decls.map LoopCode.header = sm.decls.map StampedDecl.header) :
    m.WellTyped inputs registry := by
  refine h.wellTyped (List.forall_mem_nil _) (declared_of_headers hc ht hm) ?_
  have hdtypes := congrArg (List.map fun x => x.2.2) hm
  rw [List.map_map, List.map_map] at hdtypes
  refine hdtypes.trans (List.map_congr_left fun d hd => ?_)
  obtain ⟨-, -, hstamp⟩ := hc.bodies.exists_of_mem hd
  exact congrArg Stamp.dtype hstamp

end StampedModule

/-- What is compiled is well typed, before and after inlining. -/
theorem compile_well_typed {inputs : InputTable} {registry : Registry}
    {ds : List (Declaration Span)} {c : Compilation} (h : Compiles inputs registry ds c) :
    c.code.WellTyped inputs registry ∧ c.inlined.WellTyped inputs registry := by
  obtain ⟨g, hg, hof⟩ := compiles_iff.1 h
  have hc := hof.consistent hg
  have ht := (StampedModule.faithfulFrom_ofGraph hg hof.analysis hof.stamped).typed
  have hcode := LoopModule.headers_ofStamped hof.code
  refine ⟨(hof.codes hg).wellTyped_of_headers hc ht hcode,
    (hof.codes_inlined hg).wellTyped_of_headers hc ht ?_⟩
  rw [hof.inlined, ← hcode]
  exact LoopModule.headers_inlineFrom [] _

/-- Scores, each at least a limit, with their sum and its half. -/
def raisedScores : List (Declaration Span) :=
  [⟨"raised", .value, .select .zero
      (.call .zero "lt" [.input .zero ["scores"], .input .zero ["limit"]])
      (.input .zero ["limit"]) (.input .zero ["scores"]), .zero⟩,
    ⟨"total", .value, .reduce .zero "sum" none (.ref .zero "raised"), .zero⟩,
    ⟨"half", .value, .call .zero "divide" [.ref .zero "total", .constant .zero (.integer 2)],
      .zero⟩,
    ⟨"pair", .value, .tuple .zero [.ref .zero "total", .ref .zero "half"], .zero⟩]

/-- The elements of the loop over scores are themselves the values of an input. -/
def scoreInputs : InputTable :=
  (InputTable.put .empty ⟨["limit"], [], .integer, .zero⟩).put
    ⟨["scores"], [⟨"score"⟩], .integer, .zero⟩

theorem raisedScores_well_typed :
    ∃ c, Compiles scoreInputs .builtins raisedScores c ∧
      c.code.WellTyped scoreInputs .builtins ∧ c.inlined.WellTyped scoreInputs .builtins := by
  have hg : Graph.ofDeclarations raisedScores = .ok ⟨Graph.numberFrom 0 raisedScores⟩ := rfl
  obtain ⟨c, hc⟩ : ∃ c, Compiles scoreInputs .builtins raisedScores c :=
    exists_compiles hg (by decide +kernel)
  exact ⟨c, hc, compile_well_typed hc⟩

end LoopNest
