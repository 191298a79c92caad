import LoopNest.Proofs.Analysis.Finding
import LoopNest.Proofs.Stamp.Module
import LoopNest.Proofs.Succession

/-! The analysis is its rules. A graph has an analysis just if each declaration has a stamp after
those before it, and then the one table of the nodes and the one of the names hold the only stamps
that the rules give. -/
namespace LoopNest

/-- The nodes of a graph, each after its subexpressions. -/
def Graph.nodes (g : Graph) : List GraphExpr := g.declarations.flatMap fun d => d.body.postorder

theorem Graph.map_id_nodes (g : Graph) :
    g.nodes.map (fun x => x.note.id) = g.declarations.flatMap fun d => d.body.ids := by
  rw [nodes, List.map_flatMap]
  refine congrArg (List.flatMap · g.declarations) (funext fun d => ?_)
  rw [Expr.ids, Expr.notes, List.map_map]
  rfl

namespace Analysis

variable {inputs : InputTable} {registry : Registry}

/-- A declaration has a stamp, given those of the declarations before it. -/
structure Declares (inputs : InputTable) (registry : Registry) (done : List (String × Stamp))
    (d : Declaration Node) (p : String × Stamp) : Prop where
  name_eq : p.1 = d.name
  body : HasStamp ⟨inputs, registry, done⟩ d.body p.2

section Extend

variable {a a' : Analysis} {ds : List (Declaration Node)}

theorem map_fst_decls_of_extend (h : extend inputs registry a ds = .ok a') :
    a'.decls.map Prod.fst = a.decls.map Prod.fst ++ ds.map Declaration.name := by
  induction ds generalizing a with
  | nil =>
    cases h
    exact (List.append_nil _).symm
  | cons d ds ih =>
    obtain ⟨r, -, h⟩ := extend_cons_eq_ok.1 h
    rw [ih h, List.map_append, List.append_assoc]
    rfl

/-- The stamps that an analysis adds are those of the rules. -/
theorem succession_of_extend (hn : (a.decls.map Prod.fst ++ ds.map Declaration.name).Nodup)
    (h : extend inputs registry a ds = .ok a') :
    ∃ stamps, a'.decls = a.decls ++ stamps ∧
      Succession (Declares inputs registry) a.decls ds stamps := by
  induction ds generalizing a with
  | nil =>
    cases h
    exact ⟨[], (List.append_nil _).symm, .nil⟩
  | cons d ds ih =>
    obtain ⟨r, hr, h⟩ := extend_cons_eq_ok.1 h
    obtain ⟨stamps, hdecls, hrest⟩ := ih (by simpa using hn) h
    refine ⟨(d.name, r.info.stamp) :: stamps, ?_, .cons ⟨rfl, ?_⟩ hrest⟩
    · rw [hdecls, List.append_assoc]
      rfl
    · exact (hasStamp_iff_infers hn.of_append_left d.body _).2 ⟨r, hr, rfl⟩

/-- Declarations that have stamps are analyzed. -/
theorem extend_of_succession (hn : (a.decls.map Prod.fst ++ ds.map Declaration.name).Nodup)
    {stamps : List (String × Stamp)} (h : Succession (Declares inputs registry) a.decls ds stamps) :
    ∃ a', extend inputs registry a ds = .ok a' ∧ a'.decls = a.decls ++ stamps := by
  induction ds generalizing a stamps with
  | nil =>
    cases h
    exact ⟨a, rfl, (List.append_nil _).symm⟩
  | cons d ds ih =>
    cases h with
    | @cons _ stamps _ _ p hd hrest =>
      obtain ⟨name, stamp⟩ := p
      obtain ⟨rfl, hbody⟩ := hd
      obtain ⟨r, hr, rfl⟩ := (hasStamp_iff_infers hn.of_append_left d.body _).1 hbody
      obtain ⟨a', ha, hdecls⟩ := ih (a := ⟨a.nodes ++ r.nodes, _⟩) (by simpa using hn) hrest
      refine ⟨a', extend_cons_eq_ok.2 ⟨r, hr, ha⟩, ?_⟩
      rw [hdecls, List.append_assoc]
      rfl

theorem decls_isPrefix_of_extend (h : extend inputs registry a ds = .ok a') :
    a.decls <+: a'.decls := by
  induction ds generalizing a with
  | nil =>
    cases h
    exact List.prefix_refl _
  | cons d ds ih =>
    obtain ⟨r, -, h⟩ := extend_cons_eq_ok.1 h
    exact (List.prefix_append _ _).trans (ih h)

end Extend

section Graph

variable {ds : List (Declaration Span)} {g : Graph} {a : Analysis}

theorem nodup_names (hg : Graph.ofDeclarations ds = .ok g) :
    (g.declarations.map Declaration.name).Nodup := by
  obtain ⟨hn, rfl⟩ := StampedModule.ofDeclarations_eq_ok.1 hg
  rwa [StampedModule.map_name_numberFrom]

theorem map_fst_decls_ofGraph (ha : ofGraph g inputs registry = .ok a) :
    a.decls.map Prod.fst = g.declarations.map Declaration.name :=
  map_fst_decls_of_extend ha

theorem map_fst_nodes_ofGraph (ha : ofGraph g inputs registry = .ok a) :
    a.nodes.map Prod.fst = g.nodes.map fun x => x.note.id := by
  rw [Graph.map_id_nodes]
  exact map_fst_of_extend ha

/-- What is found for a declaration, from the stamps of those before it, is in the tables. -/
theorem exists_infer (hg : Graph.ofDeclarations ds = .ok g)
    (ha : ofGraph g inputs registry = .ok a) {before after : List (Declaration Node)}
    {d : Declaration Node} (hd : g.declarations = before ++ d :: after) :
    ∃ r, infer ⟨inputs, registry, a.decls.take before.length⟩ d.body = .ok r ∧
      (∀ p ∈ r.nodes, a.node? p.1 = some p.2) ∧ a.decl? d.name = some r.info.stamp := by
  have hnames : (a.decls.map Prod.fst).Nodup := map_fst_decls_ofGraph ha ▸ nodup_names hg
  have hnodes := fun p => node?_of_mem hg ha (p := p)
  rw [ofGraph, hd] at ha
  obtain ⟨a₁, hbefore, ha⟩ := extend_append ha
  have hdecls : a.decls.take before.length = a₁.decls := by
    have hlength := congrArg List.length (map_fst_decls_of_extend hbefore)
    rw [List.length_map, empty, List.map_nil, List.nil_append, List.length_map] at hlength
    rw [← hlength]
    exact (List.prefix_iff_eq_take.1 (decls_isPrefix_of_extend ha)).symm
  obtain ⟨r, hr, hafter⟩ := extend_cons_eq_ok.1 ha
  refine ⟨r, hdecls ▸ hr, fun p hp => ?_, lookup_eq_some_of_nodup hnames ?_⟩
  · exact hnodes p (nodes_subset_of_extend hafter (List.mem_append_right _ hp))
  · exact (decls_isPrefix_of_extend hafter).subset
      (List.mem_append_right _ (List.mem_singleton.2 rfl))

/-- Where something is inferred, it is the only stamp of the rules. -/
theorem hasStamp_iff_eq {env : Env} (hnames : (env.decls.map Prod.fst).Nodup) {e : GraphExpr}
    {r : Inference} (hr : infer env e = .ok r) (s : Stamp) :
    HasStamp env e s ↔ s = r.info.stamp := by
  rw [hasStamp_iff_infers hnames]
  constructor
  · rintro ⟨r', hr', rfl⟩
    cases hr.symm.trans hr'
    rfl
  · rintro rfl
    exact ⟨r, hr, rfl⟩

theorem succession_ofGraph (hg : Graph.ofDeclarations ds = .ok g)
    (ha : ofGraph g inputs registry = .ok a) :
    Succession (Declares inputs registry) [] g.declarations a.decls := by
  obtain ⟨stamps, hdecls, hs⟩ := succession_of_extend (a := empty) (nodup_names hg) ha
  exact hdecls ▸ hs

theorem nodup_take_names (hg : Graph.ofDeclarations ds = .ok g)
    (ha : ofGraph g inputs registry = .ok a) (k : Nat) :
    ((a.decls.take k).map Prod.fst).Nodup := by
  rw [List.map_take, map_fst_decls_ofGraph ha]
  exact (nodup_names hg).take

/-- Each node is recorded with the stamp that it has by itself. -/
theorem exists_node? (hg : Graph.ofDeclarations ds = .ok g)
    (ha : ofGraph g inputs registry = .ok a) {before after : List (Declaration Node)}
    {d : Declaration Node} (hd : g.declarations = before ++ d :: after) {x : GraphExpr}
    (hx : x ∈ d.body.postorder) :
    ∃ facts, a.node? x.note.id = some facts ∧
      ∀ s, HasStamp ⟨inputs, registry, a.decls.take before.length⟩ x s ↔ s = facts.stamp := by
  obtain ⟨r, hr, hnodes, -⟩ := exists_infer hg ha hd
  obtain ⟨⟨id, facts⟩, hp, rfl, below, hx⟩ := exists_of_forall₂ (entries_of_infer hr) hx
  exact ⟨facts, hnodes _ hp, hasStamp_iff_eq (nodup_take_names hg ha _) hx⟩

/-- The analysis of a graph is what the rules derive: it succeeds just if every declaration has a
stamp after those before it, each node and each name has the one stamp that the rules give, and
there is one entry for each node. -/
theorem ofGraph_follows_rules (hg : Graph.ofDeclarations ds = .ok g) :
    ((∃ a, ofGraph g inputs registry = .ok a) ↔
      ∃ stamps, Succession (Declares inputs registry) [] g.declarations stamps) ∧
    ∀ a, ofGraph g inputs registry = .ok a →
      (∀ stamps, Succession (Declares inputs registry) [] g.declarations stamps ↔
        stamps = a.decls) ∧
      (∀ before d after, g.declarations = before ++ d :: after →
        ∃ stamp, a.decl? d.name = some stamp ∧
          (∀ s, HasStamp ⟨inputs, registry, a.decls.take before.length⟩ d.body s ↔ s = stamp) ∧
          ∀ x ∈ d.body.postorder, ∃ facts, a.node? x.note.id = some facts ∧
            ∀ s, HasStamp ⟨inputs, registry, a.decls.take before.length⟩ x s ↔
              s = facts.stamp) ∧
      a.nodes.map Prod.fst = g.nodes.map (fun x => x.note.id) ∧
      (a.nodes.map Prod.fst).Nodup := by
  have hn : (empty.decls.map Prod.fst ++ g.declarations.map Declaration.name).Nodup :=
    nodup_names hg
  refine ⟨⟨fun ⟨a, ha⟩ => ⟨_, succession_ofGraph hg ha⟩, fun ⟨stamps, hs⟩ => ?_⟩, fun a ha =>
    ⟨fun stamps => ⟨fun hs => ?_, ?_⟩, fun before d after hd => ?_, ?_, ?_⟩⟩
  · obtain ⟨a, ha, -⟩ := extend_of_succession hn hs
    exact ⟨a, ha⟩
  · obtain ⟨a', ha', hdecls⟩ := extend_of_succession hn hs
    cases ha.symm.trans ha'
    exact hdecls.symm
  · rintro rfl
    exact succession_ofGraph hg ha
  · obtain ⟨r, hr, -, hdecl⟩ := exists_infer hg ha hd
    exact ⟨_, hdecl, hasStamp_iff_eq (nodup_take_names hg ha _) hr,
      fun x hx => exists_node? hg ha hd hx⟩
  · exact map_fst_nodes_ofGraph ha
  · obtain ⟨count, hids⟩ := map_fst_ofGraph hg ha
    exact hids ▸ Expr.nodup_numbers 0 count

end Graph

/-- Orders with lines: large amounts are kept, and summed up per order and over all orders. -/
def keptAmounts : List (Declaration Span) :=
  [⟨"amount", .value, .call .zero "multiply"
      [.input .zero ["orders", "lines", "quantity"], .input .zero ["orders", "lines", "price"]],
      .zero⟩,
    ⟨"large", .trait, .call .zero "ge" [.ref .zero "amount", .input .zero ["orders", "limit"]],
      .zero⟩,
    ⟨"kept", .value, .select .zero (.ref .zero "large") (.ref .zero "amount")
      (.constant .zero (.integer 0)), .zero⟩,
    ⟨"subtotal", .value, .call .zero "sum" [.ref .zero "kept"], .zero⟩,
    ⟨"total", .value, .reduce .zero "sum" (some [⟨"order"⟩, ⟨"line"⟩]) (.ref .zero "kept"), .zero⟩,
    ⟨"parts", .value, .tuple .zero [.ref .zero "total",
      .call .zero "array" [.ref .zero "subtotal", .reduce .zero "count" none (.ref .zero "large")]],
      .zero⟩]

def orderInputs : InputTable :=
  ((InputTable.put .empty ⟨["orders", "limit"], [⟨"order"⟩], .integer, .zero⟩).put
    ⟨["orders", "lines", "quantity"], [⟨"order"⟩, ⟨"line"⟩], .integer, .zero⟩).put
    ⟨["orders", "lines", "price"], [⟨"order"⟩, ⟨"line"⟩], .float, .zero⟩

/-- An integer times a float is a float over both axes. The hint drops both of them, a reducer that
is called like a function drops one. -/
def keptStamps : List (String × Stamp) :=
  [("amount", ⟨[⟨"order"⟩, ⟨"line"⟩], .float⟩), ("large", ⟨[⟨"order"⟩, ⟨"line"⟩], .boolean⟩),
    ("kept", ⟨[⟨"order"⟩, ⟨"line"⟩], .float⟩), ("subtotal", ⟨[⟨"order"⟩], .float⟩),
    ("total", ⟨[], .float⟩),
    ("parts", ⟨[⟨"order"⟩], .tuple [.float, .tuple [.float, .integer]]⟩)]

theorem keptAmounts_follow_rules :
    ∃ g, Graph.ofDeclarations keptAmounts = .ok g ∧
      Succession (Declares orderInputs .builtins) [] g.declarations keptStamps := by
  have hg : Graph.ofDeclarations keptAmounts = .ok ⟨Graph.numberFrom 0 keptAmounts⟩ := rfl
  obtain ⟨a, ha, hdecls⟩ : ∃ a,
      ofGraph ⟨Graph.numberFrom 0 keptAmounts⟩ orderInputs .builtins = .ok a ∧
        decide (keptStamps = a.decls) = true :=
    Except.exists_of_any (by decide +kernel)
  exact ⟨_, hg, (((ofGraph_follows_rules hg).2 a ha).1 _).2 (of_decide_eq_true hdecls)⟩

end Analysis
end LoopNest
