import LoopNest.Proofs.Lowering.Module
import LoopNest.Proofs.Stamp.Repetition
import LoopNest.Proofs.Succession

/-! Analysis and stamping of a module, one declaration after the other: what a declaration becomes
depends on its text and on the stamps of the declarations that it refers to. -/
namespace LoopNest

/-- The declaration with the nodes of its body numbered. -/
def Declaration.numbered (next : Nat) (d : Declaration Span) : Declaration Node :=
  ⟨d.name, d.kind, (d.body.number next).1, d.span⟩

theorem Graph.numberFrom_cons (next : Nat) (d : Declaration Span) (ds : List (Declaration Span)) :
    numberFrom next (d :: ds) = d.numbered next :: numberFrom (d.body.number next).2 ds := rfl

namespace Stamping

open Analysis StampedModule

/-- A declaration is analyzed and stamped again. -/
theorem restamps_decl {env env' : Env} {d : Declaration Span}
    (h : env.Within env' d.body.references) {n : Nat} {i : NodeFacts}
    {nodes : List (NodeId × NodeFacts)} (n' : Nat)
    (hr : infer env (d.body.number n).1 = .ok ⟨i, nodes⟩) :
    ∃ nodes', infer env' (d.body.number n').1 = .ok ⟨i, nodes'⟩ ∧ (n' = n → nodes' = nodes) ∧
      ∀ (a a' : Analysis) (topo topo' : Nat) (c c' : ModuleCounter),
        a.Knows nodes → a'.Knows nodes' →
        Repeats StampedDecl.unnumbered (n' = n ∧ c' = c ∧ topo' = topo)
          (stampDecl a env.registry topo (d.numbered n) c)
          (stampDecl a' env'.registry topo' (d.numbered n') c') := by
  obtain ⟨nodes', hr', hsame, hstamp⟩ := restamps d.body h n' hr
  refine ⟨nodes', hr', hsame, fun a a' topo topo' c c' ha ha' => ?_⟩
  have hbody := (hstamp a a' c c' ha ha').imp fun hs : n' = n ∧ c' = c ∧ topo' = topo =>
    ⟨hs.1, hs.2.1⟩
  refine hbody.bind fun s k s' k' hs hsk => ?_
  have hnote : s'.note.stamp = s.note.stamp := by
    have := congrArg (fun e : StampedExpr => e.note.stamp) hs
    simpa [StampedExpr.unnumbered, Mark.unnumbered] using this
  have hdtype : s'.dtype = s.dtype := congrArg Stamp.dtype hnote
  rw [hdtype]
  change Repeats _ _ ((if d.kind = .trait ∧ s.dtype ≠ .boolean then _ else _ : Marking _) k)
    ((if d.kind = .trait ∧ s.dtype ≠ .boolean then _ else _ : Marking _) k')
  split
  · intro t k hk
    cases hk
  · refine repeats_pure ?_ fun hsame => ?_
    · simp only [StampedDecl.unnumbered, Declaration.numbered, hs, hnote]
    · obtain ⟨rfl, rfl⟩ := hsk hsame
      rw [hsame.2.2, hsame.1]
      exact ⟨rfl, rfl⟩

/-- What a declaration becomes after others, but for numbers. -/
def Elaborates (inputs : InputTable) (registry : Registry) (done : List StampedDecl)
    (d : Declaration Span) (u : StampedDecl) : Prop :=
  ∃ (n topo : Nat) (c c' : ModuleCounter) (r : Inference) (a : Analysis) (sd : StampedDecl),
    infer ⟨inputs, registry, stamps done⟩ (d.body.number n).1 = .ok r ∧ a.Knows r.nodes ∧
      stampDecl a registry topo (d.numbered n) c = .ok (sd, c') ∧ sd.unnumbered = u

theorem name_stampDecl {a : Analysis} {registry : Registry} {topo : Nat} {d : Declaration Node}
    {c c' : ModuleCounter} {sd : StampedDecl} (h : stampDecl a registry topo d c = .ok (sd, c')) :
    sd.name = d.name := by
  obtain ⟨body, -, -, rfl⟩ := stampDecl_eq_ok.1 h
  rfl

theorem stamp_stampDecl (env : Env) {a : Analysis} {topo : Nat} {d : Declaration Node}
    {r : Inference} {c c' : ModuleCounter} {sd : StampedDecl} (hr : infer env d.body = .ok r)
    (ha : a.Knows r.nodes) (h : stampDecl a env.registry topo d c = .ok (sd, c')) :
    sd.stamp = r.info.stamp := by
  obtain ⟨body, hbody, -, rfl⟩ := stampDecl_eq_ok.1 h
  exact (agrees d.body hr ha hbody).stamp_eq

variable {inputs : InputTable} {registry : Registry}

theorem elaborates_byName : ByName Declaration.name StampedDecl.name (fun d => d.body.references)
    (Elaborates inputs registry) where
  title_eq := by
    rintro done d u ⟨n, topo, c, c', r, a, sd, -, -, hsd, rfl⟩
    exact name_stampDecl hsd
  congr := by
    rintro done done' d u - - hfind ⟨n, topo, c, c', ⟨i, nodes⟩, a, sd, hr, ha, hsd, hu⟩
    have hwithin : Env.Within ⟨inputs, registry, stamps done⟩ ⟨inputs, registry, stamps done'⟩
        d.body.references := by
      refine ⟨.refl _, .refl _, fun name hname stamp hl => ?_⟩
      rw [lookup_stamps] at hl ⊢
      rwa [← hfind name hname]
    obtain ⟨nodes', hr', hsame, -⟩ := restamps_decl hwithin n hr
    rw [hsame rfl] at hr'
    exact ⟨n, topo, c, c', ⟨i, nodes⟩, a, sd, hr', ha, hsd, hu⟩

/-- The stamps of a module, without their numbers, come up one after the other. -/
theorem succession_of_stampDecls {a a' : Analysis} {next topo : Nat} {c : ModuleCounter}
    {ds : List (Declaration Span)} {sds done : List StampedDecl} (hdone : a.decls = stamps done)
    (ha : extend inputs registry a (Graph.numberFrom next ds) = .ok a') (hn : a'.Knows a'.nodes)
    (hs : stampDecls a' registry topo c (Graph.numberFrom next ds) = .ok sds) :
    Succession (Elaborates inputs registry) done ds (sds.map StampedDecl.unnumbered) := by
  induction ds generalizing a next topo c sds done with
  | nil =>
    cases hs
    exact .nil
  | cons d ds ih =>
    rw [Graph.numberFrom_cons] at ha hs
    obtain ⟨r, hr, ha⟩ := extend_cons_eq_ok.1 ha
    obtain ⟨sd, c₁, rest, hsd, hsds, rfl⟩ := stampDecls_cons_eq_ok.1 hs
    have hnodes : a'.Knows r.nodes := fun p hp =>
      hn p (nodes_subset_of_extend ha (List.mem_append_right _ hp))
    have hstep : Elaborates inputs registry done d sd.unnumbered := by
      rw [hdone] at hr
      exact ⟨next, topo, c, c₁, r, a', sd, hr, hnodes, hsd, rfl⟩
    refine .cons hstep (ih ?_ ha hsds)
    rw [stamps_append, hdone, ← stamp_stampDecl _ hr hnodes hsd]
    exact congrArg (fun n => stamps done ++ [(n, sd.stamp)]) (name_stampDecl hsd).symm

/-- Where the stamps of a module come up one after the other, it is analyzed and stamped. -/
theorem stampDecls_of_succession {a : Analysis} (next : Nat) {ds : List (Declaration Span)}
    {us done : List StampedDecl} (hdone : a.decls = stamps done)
    (h : Succession (Elaborates inputs registry) done ds us) :
    ∃ a', extend inputs registry a (Graph.numberFrom next ds) = .ok a' ∧
      ∀ (b : Analysis) (topo : Nat) (c : ModuleCounter), b.Knows a'.nodes →
        ∃ sds, stampDecls b registry topo c (Graph.numberFrom next ds) = .ok sds ∧
          sds.map StampedDecl.unnumbered = us := by
  induction h generalizing a next with
  | nil => exact ⟨a, rfl, fun _ _ _ _ => ⟨[], rfl, rfl⟩⟩
  | @cons done us ds d u hstep _ ih =>
    obtain ⟨n, t, k, k', ⟨i, nodes⟩, b₀, sd, hr, hb₀, hsd, rfl⟩ := hstep
    let env : Env := ⟨inputs, registry, stamps done⟩
    have hwithin : env.Within env d.body.references := ⟨.refl _, .refl _, fun _ _ _ hl => hl⟩
    obtain ⟨nodes', hr', -, hstamp⟩ := restamps_decl hwithin next hr
    have hstamp_eq : sd.stamp = i.stamp := stamp_stampDecl env hr hb₀ hsd
    have hdecls : a.decls ++ [(d.name, i.stamp)] = stamps (done ++ [sd.unnumbered]) := by
      rw [stamps_append, hdone, ← hstamp_eq]
      exact congrArg (fun n => stamps done ++ [(n, sd.stamp)]) (name_stampDecl hsd).symm
    obtain ⟨a', ha', hrest⟩ := @ih ⟨a.nodes ++ nodes', _⟩ (d.body.number next).2 hdecls
    have hsub : nodes' ⊆ a'.nodes := fun p hp =>
      nodes_subset_of_extend ha' (List.mem_append_right _ hp)
    refine ⟨a', ?_, fun b topo c hb => ?_⟩
    · refine extend_cons_eq_ok.2 ⟨⟨i, nodes'⟩, ?_, ha'⟩
      rw [hdone]
      exact hr'
    · obtain ⟨sd', c', hsd', hplain, -⟩ :=
        hstamp b₀ b t topo k c hb₀ (fun p hp => hb p (hsub hp)) sd k' hsd
      obtain ⟨sds, hsds, hus⟩ := hrest b (topo + 1) c' hb
      refine ⟨sd' :: sds, ?_, by rw [List.map_cons, hplain, hus]⟩
      exact stampDecls_cons_eq_ok.2 ⟨sd', c', sds, hsd', hsds, rfl⟩

/-- With more inputs and functions at hand, the analysis and the stamps are the very same. -/
theorem extend_within {inputs' : InputTable} {registry' : Registry} (hi : inputs.Within inputs')
    (hf : registry.Within registry') {a a' : Analysis} {next : Nat} {ds : List (Declaration Span)}
    (h : extend inputs registry a (Graph.numberFrom next ds) = .ok a') :
    extend inputs' registry' a (Graph.numberFrom next ds) = .ok a' ∧
      ∀ (b b' : Analysis) (topo : Nat) (c : ModuleCounter) (sds : List StampedDecl),
        b.Knows a'.nodes → b'.Knows a'.nodes →
        stampDecls b registry topo c (Graph.numberFrom next ds) = .ok sds →
        stampDecls b' registry' topo c (Graph.numberFrom next ds) = .ok sds := by
  induction ds generalizing a next with
  | nil => exact ⟨h, fun _ _ _ _ _ _ _ hs => hs⟩
  | cons d ds ih =>
    obtain ⟨r, hr, h⟩ := extend_cons_eq_ok.1 h
    have hwithin : Env.Within ⟨inputs, registry, a.decls⟩ ⟨inputs', registry', a.decls⟩
        d.body.references := ⟨hi, hf, fun _ _ _ hl => hl⟩
    obtain ⟨nodes', hr', hsame, hstamp⟩ := restamps_decl hwithin next hr
    rw [hsame rfl] at hr' hstamp
    obtain ⟨hextend, hrest⟩ := ih h
    have hsub : r.nodes ⊆ a'.nodes := fun p hp =>
      nodes_subset_of_extend h (List.mem_append_right _ hp)
    refine ⟨extend_cons_eq_ok.2 ⟨r, hr', hextend⟩, fun b b' topo c sds hb hb' hs => ?_⟩
    obtain ⟨sd, c₁, rest, hsd, hsds, rfl⟩ := stampDecls_cons_eq_ok.1 hs
    obtain ⟨sd', c₁', hsd', -, heq⟩ := hstamp b b' topo topo c c (fun p hp => hb p (hsub hp))
      (fun p hp => hb' p (hsub hp)) sd c₁ hsd
    obtain ⟨rfl, rfl⟩ := heq ⟨rfl, rfl, rfl⟩
    exact stampDecls_cons_eq_ok.2 ⟨_, _, rest, hsd', hrest b b' _ _ _ hb hb' hsds, rfl⟩

end Stamping

namespace StampedModule

open Stamping

variable {inputs : InputTable} {registry : Registry} {ds : List (Declaration Span)} {g : Graph}

/-- The declarations of a stamped module come up one after the other. -/
theorem succession_ofGraph (hg : Graph.ofDeclarations ds = .ok g) {a : Analysis}
    (ha : Analysis.ofGraph g inputs registry = .ok a) {sm : StampedModule}
    (hm : ofGraph g a registry = .ok sm) :
    Succession (Elaborates inputs registry) [] ds (sm.decls.map StampedDecl.unnumbered) := by
  have hknows : a.Knows a.nodes := fun _ hp => Analysis.node?_of_mem hg ha hp
  obtain ⟨-, rfl⟩ := ofDeclarations_eq_ok.1 hg
  obtain ⟨sds, hs, hm⟩ := Except.bind_eq_ok.1 hm
  cases hm
  exact succession_of_stampDecls (a := .empty) rfl ha hknows hs

theorem exists_ofGraph (hg : Graph.ofDeclarations ds = .ok g) {us : List StampedDecl}
    (h : Succession (Elaborates inputs registry) [] ds us) :
    ∃ a sm, Analysis.ofGraph g inputs registry = .ok a ∧ ofGraph g a registry = .ok sm ∧
      sm.decls.map StampedDecl.unnumbered = us := by
  obtain ⟨-, rfl⟩ := ofDeclarations_eq_ok.1 hg
  obtain ⟨a, ha, hstamp⟩ := stampDecls_of_succession (a := .empty) 0 rfl h
  have hknows : a.Knows a.nodes := fun _ hp => Analysis.node?_of_mem hg ha hp
  obtain ⟨sds, hsds, hus⟩ := hstamp a 0 .zero hknows
  exact ⟨a, ⟨sds⟩, ha, Except.bind_eq_ok.2 ⟨sds, hsds, rfl⟩, hus⟩

end StampedModule
end LoopNest
