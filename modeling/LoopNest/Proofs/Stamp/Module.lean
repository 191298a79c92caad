import LoopNest.Proofs.Analysis.Entries
import LoopNest.Proofs.Stamp.Consistency
import Mathlib.Data.List.Nodup

/-! Stamped modules. The analysis of a graph has one entry for each node, so what the stamper makes
of the graph is consistent, declaration by declaration. -/
namespace LoopNest

namespace Stamping

variable {a : Analysis} {registry : Registry} {topo : Nat} {d : Declaration Node}
  {c c' : ModuleCounter}

theorem stampDecl_eq_ok {sd : StampedDecl} :
    stampDecl a registry topo d c = .ok (sd, c') ↔
      ∃ body, stampExpr a registry d.body c = .ok (body, c') ∧
        ¬(d.kind = .trait ∧ body.dtype ≠ .boolean) ∧
        ⟨d.name, d.kind, body, body.note.stamp, topo, d.span⟩ = sd := by
  rw [stampDecl, StateT.bind_eq_ok]
  constructor
  · rintro ⟨body, c₁, hbody, h⟩
    split at h
    · cases h
    · rename_i hkind
      cases h
      exact ⟨body, hbody, hkind, rfl⟩
  · rintro ⟨body, hbody, hkind, rfl⟩
    exact ⟨body, c', hbody, by rw [if_neg hkind]; rfl⟩

/-- The first declaration is stamped, and the others with the counter that it leaves. -/
theorem stampDecls_cons_eq_ok {ds : List (Declaration Node)} {sds : List StampedDecl} :
    stampDecls a registry topo c (d :: ds) = .ok sds ↔
      ∃ sd c₁ rest, stampDecl a registry topo d c = .ok (sd, c₁) ∧
        stampDecls a registry (topo + 1) c₁ ds = .ok rest ∧ sd :: rest = sds := by
  rw [stampDecls, StateT.run]
  cases stampDecl a registry topo d c with
  | error e =>
    constructor
    · intro h
      cases h
    · rintro ⟨sd, c₁, rest, h, -⟩
      cases h
  | ok p =>
    constructor
    · intro h
      obtain ⟨rest, hrest, h⟩ := Except.bind_eq_ok.1 h
      cases h
      exact ⟨p.1, p.2, rest, rfl, hrest, rfl⟩
    · rintro ⟨sd, c₁, rest, h, hrest, rfl⟩
      cases h
      exact Except.bind_eq_ok.2 ⟨rest, hrest, rfl⟩

end Stamping

namespace StampedModule

/-- Each declaration is consistent after those before it. -/
def ConsistentFrom (inputs : InputTable) (known : List (String × Stamp)) : List StampedDecl → Prop
  | [] => True
  | d :: ds => d.body.Consistent inputs known ∧ d.stamp = d.body.note.stamp ∧
    ConsistentFrom inputs (known ++ [(d.name, d.stamp)]) ds

/-- Each declaration is typed after those before it. -/
def TypedFrom (inputs : InputTable) (registry : Registry) (known : List (String × Stamp)) :
    List StampedDecl → Prop
  | [] => True
  | d :: ds => d.body.Typed inputs registry known ∧
    TypedFrom inputs registry (known ++ [(d.name, d.stamp)]) ds

/-- The axes in a module follow from its inputs, and its declarations have names of their own. -/
structure Consistent (inputs : InputTable) (m : StampedModule) : Prop where
  bodies : ConsistentFrom inputs [] m.decls
  names : (m.decls.map StampedDecl.name).Nodup

/-- Stamped declarations after others: they stand for the declarations of a graph, their axes and
types follow from one another, and they read no other inputs. -/
structure FaithfulFrom (inputs : InputTable) (registry : Registry) (known : List (String × Stamp))
    (gds : List (Declaration Node)) (sds : List StampedDecl) : Prop where
  consistent : ConsistentFrom inputs known sds
  typed : TypedFrom inputs registry known sds
  names : sds.map StampedDecl.name = gds.map Declaration.name
  uses : ∀ sd ∈ sds, ∀ u ∈ StampedExpr.inputUses sd.body,
    ∃ d ∈ gds, ∃ n, .input n u.path ∈ d.body.postorder

theorem faithfulFrom_stampDecls {inputs : InputTable} {registry : Registry} {a a' : Analysis}
    {gds : List (Declaration Node)} {sds : List StampedDecl} {topo : Nat} {c : ModuleCounter}
    (ha : Analysis.extend inputs registry a gds = .ok a')
    (hn : ∀ p ∈ a'.nodes, a'.node? p.1 = some p.2)
    (hs : Stamping.stampDecls a' registry topo c gds = .ok sds) :
    FaithfulFrom inputs registry a.decls gds sds := by
  induction gds generalizing a sds topo c with
  | nil =>
    cases hs
    exact ⟨trivial, trivial, rfl, List.forall_mem_nil _⟩
  | cons d gds ih =>
    obtain ⟨r, hr, ha⟩ := Analysis.extend_cons_eq_ok.1 ha
    obtain ⟨sd, c₁, rest, hsd, hsds, rfl⟩ := Stamping.stampDecls_cons_eq_ok.1 hs
    obtain ⟨body, hbody, -, rfl⟩ := Stamping.stampDecl_eq_ok.1 hsd
    have hnodes : ∀ p ∈ r.nodes, a'.node? p.1 = some p.2 := fun p hp =>
      hn p (Analysis.nodes_subset_of_extend ha (List.mem_append_right _ hp))
    have hfirst := Stamping.agrees d.body hr hnodes hbody
    have hrest := ih ha hsds
    have hstamp := hfirst.stamp_eq
    refine ⟨⟨hfirst.consistent, rfl, ?_⟩, ⟨hfirst.typed, ?_⟩, ?_, List.forall_mem_cons.2
      ⟨fun u hu => ⟨d, List.mem_cons_self, hfirst.uses u hu⟩, fun sd hsd u hu => ?_⟩⟩
    · rw [hstamp]
      exact hrest.consistent
    · rw [hstamp]
      exact hrest.typed
    · rw [List.map_cons, List.map_cons, hrest.names]
    · obtain ⟨d', hd', huse⟩ := hrest.uses sd hsd u hu
      exact ⟨d', List.mem_cons_of_mem _ hd', huse⟩

theorem nodup_of_firstDuplicate? {seen : List String} {ds : List (Declaration Span)}
    (h : Graph.firstDuplicate? seen ds = none) :
    (ds.map Declaration.name).Nodup ∧ ∀ d ∈ ds, d.name ∉ seen := by
  induction ds generalizing seen with
  | nil => simp
  | cons d ds ih =>
    rw [Graph.firstDuplicate?] at h
    split at h
    · cases h
    · rename_i hd
      obtain ⟨hnodup, hseen⟩ := ih h
      refine ⟨List.nodup_cons.2 ⟨fun hm => ?_, hnodup⟩, fun x hx => ?_⟩
      · obtain ⟨x, hx, hname⟩ := List.mem_map.1 hm
        exact hseen x hx (hname ▸ List.mem_cons_self)
      · rcases List.mem_cons.1 hx with rfl | hx
        · simpa using hd
        · exact fun hm => hseen x hx (List.mem_cons_of_mem _ hm)

theorem firstDuplicate?_of_nodup {seen : List String} {ds : List (Declaration Span)}
    (h : (ds.map Declaration.name).Nodup) (hseen : ∀ d ∈ ds, d.name ∉ seen) :
    Graph.firstDuplicate? seen ds = none := by
  induction ds generalizing seen with
  | nil => rfl
  | cons d ds ih =>
    obtain ⟨hd, hds⟩ := List.nodup_cons.1 h
    obtain ⟨hfirst, hrest⟩ := List.forall_mem_cons.1 hseen
    rw [Graph.firstDuplicate?, if_neg (by simpa using hfirst)]
    refine ih hds fun x hx hmem => ?_
    rcases List.mem_cons.1 hmem with heq | hmem
    · exact hd (heq ▸ List.mem_map_of_mem hx)
    · exact hrest x hx hmem

/-- Declarations form a graph just if their names are distinct. -/
theorem ofDeclarations_eq_ok {ds : List (Declaration Span)} {g : Graph} :
    Graph.ofDeclarations ds = .ok g ↔
      (ds.map Declaration.name).Nodup ∧ g = ⟨Graph.numberFrom 0 ds⟩ := by
  rw [Graph.ofDeclarations]
  constructor
  · intro hg
    split at hg
    · cases hg
    · rename_i hdup
      cases hg
      exact ⟨(nodup_of_firstDuplicate? hdup).1, rfl⟩
  · rintro ⟨hn, rfl⟩
    rw [firstDuplicate?_of_nodup hn fun d _ => List.not_mem_nil]

theorem map_name_numberFrom (next : Nat) (ds : List (Declaration Span)) :
    (Graph.numberFrom next ds).map Declaration.name = ds.map Declaration.name := by
  induction ds generalizing next with
  | nil => rfl
  | cons d ds ih => simp [Graph.numberFrom, ih]

/-- What the stamper makes of an analyzed graph. -/
theorem faithfulFrom_ofGraph {ds : List (Declaration Span)} {g : Graph} {inputs : InputTable}
    {registry : Registry} {a : Analysis} {m : StampedModule}
    (hg : Graph.ofDeclarations ds = .ok g) (ha : Analysis.ofGraph g inputs registry = .ok a)
    (hm : ofGraph g a registry = .ok m) :
    FaithfulFrom inputs registry [] g.declarations m.decls := by
  obtain ⟨sds, hs, hm⟩ := Except.bind_eq_ok.1 hm
  cases hm
  exact faithfulFrom_stampDecls ha (fun _ hp => Analysis.node?_of_mem hg ha hp) hs

theorem names_ofGraph {ds : List (Declaration Span)} {g : Graph} {inputs : InputTable}
    {registry : Registry} {a : Analysis} {m : StampedModule}
    (hg : Graph.ofDeclarations ds = .ok g) (ha : Analysis.ofGraph g inputs registry = .ok a)
    (hm : ofGraph g a registry = .ok m) :
    m.decls.map StampedDecl.name = ds.map Declaration.name := by
  have hfaithful := faithfulFrom_ofGraph hg ha hm
  obtain ⟨-, rfl⟩ := ofDeclarations_eq_ok.1 hg
  rw [hfaithful.names, map_name_numberFrom]

/-- What the stamper makes of an analyzed graph is consistent. -/
theorem consistent_ofGraph {ds : List (Declaration Span)} {g : Graph} {inputs : InputTable}
    {registry : Registry} {a : Analysis} {m : StampedModule}
    (hg : Graph.ofDeclarations ds = .ok g) (ha : Analysis.ofGraph g inputs registry = .ok a)
    (hm : ofGraph g a registry = .ok m) : m.Consistent inputs :=
  ⟨(faithfulFrom_ofGraph hg ha hm).consistent,
    names_ofGraph hg ha hm ▸ (ofDeclarations_eq_ok.1 hg).1⟩

theorem ConsistentFrom.exists_of_mem {inputs : InputTable} {known : List (String × Stamp)}
    {ds : List StampedDecl} (h : ConsistentFrom inputs known ds) {d : StampedDecl} (hd : d ∈ ds) :
    ∃ known', d.body.Consistent inputs known' ∧ d.stamp = d.body.note.stamp := by
  induction ds generalizing known with
  | nil => cases hd
  | cons d' ds ih =>
    obtain ⟨hbody, hstamp, hrest⟩ := h
    rcases List.mem_cons.1 hd with rfl | hd
    · exact ⟨known, hbody, hstamp⟩
    · exact ih hrest hd

end StampedModule
end LoopNest
