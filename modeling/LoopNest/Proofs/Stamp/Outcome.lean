import LoopNest.Proofs.Analysis.Exactness
import LoopNest.Proofs.Stamp.Mirror
import LoopNest.Proofs.Stamp.Repetition

/-! How stamping ends. The axes of a selection are found by a rule of their own: those of the
branches, which the mask has to begin. On an analyzed graph this is the only rule that fails, next
to the one for traits, and where all goes well each node has the stamp that the analysis has for it,
and one number for all purposes. -/
namespace LoopNest

namespace Axes

/-- The branches of a selection vary over something, and the mask is no prefix of it. -/
def Escapes (mask onTrue onFalse : Axes) : Prop :=
  ∃ branches, IsJoin [onTrue, onFalse] branches ∧ branches ≠ [] ∧ ¬mask <+: branches

theorem escapes_iff {mask onTrue onFalse branches : Axes}
    (h : lub [onTrue, onFalse] = .ok branches) :
    Escapes mask onTrue onFalse ↔ branches ≠ [] ∧ ¬mask <+: branches := by
  constructor
  · rintro ⟨branches', hjoin, hne, hmask⟩
    cases (lub_eq_ok_iff_isJoin.2 hjoin).symm.trans h
    exact ⟨hne, hmask⟩
  · rintro ⟨hne, hmask⟩
    exact ⟨branches, lub_eq_ok_iff_isJoin.1 h, hne, hmask⟩

theorem exists_lub {vectors : List Axes} {a : Axes} (h : ∀ v ∈ vectors, v <+: a)
    (hne : vectors ≠ []) : ∃ b, lub vectors = .ok b :=
  ⟨longest vectors, lub_eq_ok_iff.2 ⟨prefix_longest h, .inl (longest_mem hne)⟩⟩

end Axes

namespace Analysis

/-- A selection whose mask escapes its branches, by what the analysis has for them. -/
inductive MaskEscapes (a : Analysis) : GraphExpr → Prop
  | select {n : Node} {c t f : GraphExpr} {ic it iF : NodeFacts} :
    a.node? c.note.id = some ic → a.node? t.note.id = some it → a.node? f.note.id = some iF →
    Axes.Escapes ic.axes it.axes iF.axes → MaskEscapes a (.select n c t f)

/-- A trait whose type is not `boolean`, by what the analysis has for it. -/
structure BadTrait (a : Analysis) (d : Declaration Node) : Prop where
  kind_eq : d.kind = .trait
  stamp : ∃ stamp, a.decl? d.name = some stamp ∧ stamp.dtype ≠ .boolean

/-- A mark that carries what the analysis has for a node. -/
structure Records (a : Analysis) (n : Node) (m : Mark) : Prop where
  node_eq : m.node = n.id
  span_eq : m.span = n.span
  stamp_eq : ∃ facts, a.node? n.id = some facts ∧ m.stamp = facts.stamp

end Analysis

namespace Stamping

open Analysis StampedExpr

/-- With operands that have common axes, a selection has these, or its mask escapes. -/
theorem selectAxes_ends {c t f axes : Axes} (h : Axes.lub [c, t, f] = .ok axes) :
    Except.Ends (fun axes' => axes' = axes ∧ ¬Axes.Escapes c t f)
      (fun fault => fault.code? = some .prefixMismatch ∧ Axes.Escapes c t f)
      (selectAxes c t f) := by
  -- the branches alone have common axes, too, so they cannot be in conflict
  obtain ⟨branches, hb⟩ : ∃ branches, Axes.lub [t, f] = .ok branches :=
    Axes.exists_lub (fun v hv => Axes.prefix_of_lub h (List.mem_cons_of_mem _ hv))
      (List.cons_ne_nil _ _)
  have heq : ∀ axes', selectAxes c t f = .ok axes' → axes' = axes := by
    intro axes' hsel
    cases (selectAxes_eq_ok hsel).symm.trans h
    rfl
  rw [Axes.escapes_iff hb]
  cases branches with
  | nil =>
    have hsel : selectAxes c t f = .ok c := by rw [selectAxes, hb]
    rw [hsel]
    exact ⟨heq c hsel, fun h => h.1 rfl⟩
  | cons x xs =>
    by_cases hmask : c <+: x :: xs
    · have hsel : selectAxes c t f = .ok (x :: xs) := by
        simp only [selectAxes, hb]
        exact if_pos (List.isPrefixOf_iff_prefix.2 hmask)
      rw [hsel]
      exact ⟨heq _ hsel, fun h => h.2 hmask⟩
    · have hsel : selectAxes c t f = .error (.maskConflict c (x :: xs)) := by
        simp only [selectAxes, hb]
        exact if_neg fun h => hmask (List.isPrefixOf_iff_prefix.1 h)
      rw [hsel]
      exact ⟨rfl, List.cons_ne_nil _ _, hmask⟩

variable {env : Env} {a : Analysis}

/-- What an expression is stamped to. -/
structure Settled (a : Analysis) (registry : Registry) (e : GraphExpr) (c : ModuleCounter)
    (p : StampedExpr × ModuleCounter) : Prop where
  mirrors : Mirrors registry a.Records e p.1
  marked : Marked c p.1.notes p.2
  masked : ∀ x ∈ e.postorder, ¬a.MaskEscapes x

/-- What some expressions are stamped to. -/
structure SettledAll (a : Analysis) (registry : Registry) (es : List GraphExpr) (c : ModuleCounter)
    (p : List StampedExpr × ModuleCounter) : Prop where
  mirrors : List.Forall₂ (Mirrors registry a.Records) es p.1
  marked : Marked c (p.1.flatMap Expr.notes) p.2
  masked : ∀ x ∈ es.flatMap Expr.postorder, ¬a.MaskEscapes x

/-- The fault of a selection among some nodes. -/
def Escape (a : Analysis) (xs : List GraphExpr) (d : Diagnostic) : Prop :=
  d.code = some .prefixMismatch ∧ ∃ x ∈ xs, a.MaskEscapes x

theorem Escape.mono {xs ys : List GraphExpr} {d : Diagnostic} (h : Escape a xs d) (hsub : xs ⊆ ys) :
    Escape a ys d := by
  obtain ⟨hcode, x, hx, hmask⟩ := h
  exact ⟨hcode, x, hsub hx, hmask⟩

theorem ends_escape {α : Type} {result : α → Prop} {xs ys : List GraphExpr}
    {x : Except Diagnostic α} (h : Except.Ends result (Escape a xs) x) (hsub : xs ⊆ ys) :
    Except.Ends result (Escape a ys) x :=
  h.imp_fault fun _ h => h.mono hsub

/-- An analyzed expression is settled, or the mask of a selection escapes. -/
def Settles (env : Env) (a : Analysis) (e : GraphExpr) : Prop :=
  ∀ {r : Inference}, infer env e = .ok r → a.Knows r.nodes → ∀ c,
    Except.Ends (Settled a env.registry e c) (Escape a e.postorder)
      (stampExpr a env.registry e c)

theorem node?_of_infer {e : GraphExpr} {r : Inference} (hr : infer env e = .ok r)
    (hn : a.Knows r.nodes) : a.node? e.note.id = some r.info :=
  hn _ (mem_nodes_of_infer hr)

theorem axes_of_mirrors {registry : Registry} {e : GraphExpr} {s : StampedExpr} {i : NodeFacts}
    (h : Mirrors registry a.Records e s) (hi : a.node? e.note.id = some i) : s.axes = i.axes := by
  obtain ⟨facts, hfacts, hstamp⟩ := h.note.stamp_eq
  cases hi.symm.trans hfacts
  rw [StampedExpr.axes, hstamp]
  rfl

theorem stampAll_ends {es : List GraphExpr} {rs : List Inference}
    (h : ∀ e ∈ es, Settles env a e) (hrs : List.Forall₂ (fun e r => infer env e = .ok r) es rs)
    (hn : a.Knows (rs.flatMap Inference.nodes)) (c : ModuleCounter) :
    Except.Ends (SettledAll a env.registry es c) (Escape a (es.flatMap Expr.postorder))
      (stampAll a env.registry es c) := by
  induction hrs generalizing c with
  | nil => exact ⟨.nil, .nil c, List.forall_mem_nil _⟩
  | @cons e r es rs hr _ ih =>
    obtain ⟨he, hes⟩ := List.forall_mem_cons.1 h
    rw [List.flatMap_cons, knows_append] at hn
    rw [stampAll, List.flatMap_cons]
    refine StateT.ends_bind (ends_escape (he hr hn.1 c) (List.subset_append_left _ _))
      fun s c₁ hs => ?_
    refine StateT.ends_bind (ends_escape (ih hes hn.2 c₁) (List.subset_append_right _ _))
      fun ss c₂ hss => ?_
    exact ⟨.cons hs.mirrors hss.mirrors, hs.marked.append hss.marked,
      List.forall_mem_append.2 ⟨hs.masked, hss.masked⟩⟩

theorem info_ends {α : Type} {n : Node} {i : NodeFacts} {c : ModuleCounter}
    {f : NodeFacts → Marking α} {result : α × ModuleCounter → Prop} {fault : Diagnostic → Prop}
    (hi : a.node? n.id = some i)
    (h : Except.Ends result fault (f i c)) : Except.Ends result fault ((info a n >>= f) c) := by
  change Except.Ends result fault (info a n c >>= fun p => f p.1 p.2)
  rw [info_of_node? hi]
  exact h

/-- A node is built over operands that are settled. -/
theorem built_ends {registry : Registry} {e : GraphExpr} {n : Node} {i : NodeFacts}
    {plan : Option Plan} {build : Mark → StampedExpr} {marks : List Mark} {c c₁ : ModuleCounter}
    {fault : Diagnostic → Prop} (hi : a.node? n.id = some i)
    (hbuild : ∀ m, a.Records n m → Mirrors registry a.Records e (build m))
    (hnotes : ∀ m, (build m).notes = marks ++ [m]) (hmarks : Marked c marks c₁)
    (hmasked : ∀ x ∈ e.postorder, ¬a.MaskEscapes x) :
    Except.Ends (Settled a registry e c) fault
      ((do return build (← mark n i.stamp plan) : Marking StampedExpr) c₁) := by
  refine mark_ends.imp ?_ fun _ => id
  rintro ⟨s, c₂⟩ ⟨m, rfl, hnode, hspan, hstamp, hm⟩
  refine ⟨hbuild m ⟨hnode, hspan, i, hi, hstamp⟩, ?_, hmasked⟩
  rw [hnotes]
  exact hmarks.append hm

theorem leaf_ends {registry : Registry} {e : GraphExpr} {n : Node} {i : NodeFacts}
    {leaf : Mark → StampedExpr} {fault : Diagnostic → Prop}
    (hn : a.Knows (Inference.node n [] i).nodes)
    (hleaf : ∀ m, a.Records n m → Mirrors registry a.Records e (leaf m))
    (hnotes : ∀ m, (leaf m).notes = [m]) (hmasked : ∀ x ∈ e.postorder, ¬a.MaskEscapes x)
    (c : ModuleCounter) :
    Except.Ends (Settled a registry e c) fault
      ((do let i ← info a n; return leaf (← mark n i.stamp none) : Marking StampedExpr) c) := by
  have hi := (knows_node.1 hn).2
  exact info_ends hi (built_ends hi hleaf hnotes (.nil c) hmasked)

/-- The node of a call. -/
theorem stampCall_ends {n : Node} {func : String} {args : List GraphExpr} {infos : List NodeFacts}
    {i : NodeFacts} {ss : List StampedExpr} {c c₁ : ModuleCounter} {fault : Diagnostic → Prop}
    (hi : a.node? n.id = some i) (hrule : callRule env func infos n.span = .ok i)
    (hlength : infos.length = args.length) (hss : SettledAll a env.registry args c (ss, c₁)) :
    Except.Ends (Settled a env.registry (.call n func args) c) fault
      (stampCall env.registry i n func ss c₁) := by
  have hmasked : ∀ x ∈ (Expr.call n func args : GraphExpr).postorder, ¬a.MaskEscapes x := by
    rw [Expr.postorder_call]
    refine List.forall_mem_append.2 ⟨hss.masked, List.forall_mem_singleton.2 fun h => ?_⟩
    cases h
  obtain ⟨f, hf, hrule⟩ := Except.bind_eq_ok.1 hrule
  have hfind := function_eq_ok hf
  cases hkind : f.kind with
  | elementwise | constructor =>
    simp only [stampCall, hfind, Option.map_some, hkind]
    exact built_ends hi (fun m hm => .call hm hfind (by simp [hkind]) hss.mirrors)
      (fun m => Expr.notes_call m func ss) hss.marked hmasked
  | reduce =>
    rw [hkind] at hrule
    -- the analysis has let only one argument through
    obtain ⟨arg, r, rfl, hr, -, -⟩ := reduceRule_eq_ok hrule
    obtain ⟨e, rfl⟩ := List.length_eq_one_iff.1 hlength.symm
    obtain ⟨hmirrors, hmarked, -⟩ := hss
    cases hmirrors with
    | cons hs hnil =>
      cases hnil
      rw [List.flatMap_singleton] at hmarked
      simp only [stampCall, hfind, Option.map_some, hkind, hr]
      exact built_ends hi (fun m hm => .reducer hm hfind hkind hs)
        (fun m => Expr.notes_reduce m func r.reduced _) hmarked hmasked

/-- The node of a selection, where both rules for its axes meet. -/
theorem stampSelect_ends {n : Node} {c t f : GraphExpr} {i ic it iF : NodeFacts}
    {sc st sf : StampedExpr} {k k₁ k₂ k₃ : ModuleCounter} (hi : a.node? n.id = some i)
    (hic : a.node? c.note.id = some ic) (hit : a.node? t.note.id = some it)
    (hif : a.node? f.note.id = some iF) (hrule : selectRule ic it iF n.span = .ok i)
    (hc : Settled a env.registry c k (sc, k₁)) (ht : Settled a env.registry t k₁ (st, k₂))
    (hf : Settled a env.registry f k₂ (sf, k₃)) :
    Except.Ends (Settled a env.registry (.select n c t f) k)
      (Escape a (Expr.select n c t f : GraphExpr).postorder) (stampSelect i n sc st sf k₃) := by
  have hsel := selectAxes_ends (selectRule_eq_ok hrule)
  rw [← axes_of_mirrors hc.mirrors hic, ← axes_of_mirrors ht.mirrors hit,
    ← axes_of_mirrors hf.mirrors hif] at hsel
  -- the axes on the operands are those of the analysis, so both speak of the same mask
  have hescapes : a.MaskEscapes (.select n c t f) ↔ Axes.Escapes sc.axes st.axes sf.axes := by
    rw [axes_of_mirrors hc.mirrors hic, axes_of_mirrors ht.mirrors hit,
      axes_of_mirrors hf.mirrors hif]
    constructor
    · intro h
      cases h with
      | select hic' hit' hif' h =>
        cases hic.symm.trans hic'
        cases hit.symm.trans hit'
        cases hif.symm.trans hif'
        exact h
    · exact .select hic hit hif
  rw [← hescapes] at hsel
  cases haxes : selectAxes sc.axes st.axes sf.axes with
  | error fault =>
    rw [haxes] at hsel
    simp only [stampSelect, haxes]
    exact ⟨hsel.1, _, Expr.mem_postorder _, hsel.2⟩
  | ok axes =>
    rw [haxes] at hsel
    obtain ⟨rfl, hmask⟩ := hsel
    simp only [stampSelect, haxes]
    refine built_ends hi (fun m hm => .select hm hc.mirrors ht.mirrors hf.mirrors)
      (fun m => ?_) (hc.marked.append (ht.marked.append hf.marked)) ?_
    · rw [Expr.notes_select, List.append_assoc, List.append_assoc]
    · rw [Expr.postorder_select]
      exact List.forall_mem_append.2 ⟨hc.masked, List.forall_mem_append.2 ⟨ht.masked,
        List.forall_mem_append.2 ⟨hf.masked, List.forall_mem_singleton.2 hmask⟩⟩⟩

/-- Every analyzed expression is settled, or has a selection whose mask escapes. -/
theorem settles (e : GraphExpr) : Settles env a e := by
  -- operands are stamped before the node, and a fault below is a fault of the whole
  induction e using Expr.induction with
  | constant n v =>
    intro r hr hn c
    cases hr
    refine leaf_ends hn (fun m hm => .constant hm) (fun m => rfl) ?_ c
    exact List.forall_mem_singleton.2 fun h => by cases h
  | input n path =>
    intro r hr hn c
    obtain ⟨i, -, rfl⟩ := infer_leaf_eq_ok.1 hr
    refine leaf_ends hn (fun m hm => .input hm) (fun m => rfl) ?_ c
    exact List.forall_mem_singleton.2 fun h => by cases h
  | ref n name =>
    intro r hr hn c
    obtain ⟨i, -, rfl⟩ := infer_leaf_eq_ok.1 hr
    refine leaf_ends hn (fun m hm => .ref hm) (fun m => rfl) ?_ c
    exact List.forall_mem_singleton.2 fun h => by cases h
  | call n func args ih =>
    intro r hr hn c
    obtain ⟨rs, i, hrs, hrule, rfl⟩ := infer_call_eq_ok.1 hr
    obtain ⟨hbelow, hi⟩ := knows_node.1 hn
    rw [stampExpr]
    refine info_ends hi (StateT.ends_bind (ends_escape (stampAll_ends ih hrs hbelow c) ?_)
      fun ss c₁ hss => stampCall_ends hi hrule ?_ hss)
    · rw [Expr.postorder_call]
      exact List.subset_append_left _ _
    · rw [List.length_map, hrs.length_eq]
  | tuple n elems ih =>
    intro r hr hn c
    obtain ⟨rs, i, hrs, -, rfl⟩ := infer_tuple_eq_ok.1 hr
    obtain ⟨hbelow, hi⟩ := knows_node.1 hn
    rw [stampExpr, Expr.postorder_tuple]
    refine info_ends hi (StateT.ends_bind
      (ends_escape (stampAll_ends ih hrs hbelow c) (List.subset_append_left _ _))
      fun ss c₁ hss => ?_)
    refine built_ends hi (fun m hm => .tuple hm hss.mirrors) (fun m => Expr.notes_tuple m ss)
      hss.marked ?_
    rw [Expr.postorder_tuple]
    exact List.forall_mem_append.2 ⟨hss.masked, List.forall_mem_singleton.2 fun h => by cases h⟩
  | select n c t f ihc iht ihf =>
    intro r hr hn k
    obtain ⟨rc, rt, rf, i, hrc, hrt, hrf, hrule, rfl⟩ := infer_select_eq_ok.1 hr
    obtain ⟨hbelow, hi⟩ := knows_node.1 hn
    obtain ⟨hnc, hbelow⟩ := knows_append.1 hbelow
    obtain ⟨hnt, hnf⟩ := knows_append.1 hbelow
    rw [stampExpr]
    refine info_ends hi (StateT.ends_bind (ends_escape (ihc hrc hnc k) ?_)
      fun sc k₁ hc => StateT.ends_bind (ends_escape (iht hrt hnt k₁) ?_)
      fun st k₂ ht => StateT.ends_bind (ends_escape (ihf hrf hnf k₂) ?_) fun sf k₃ hf => ?_)
    · exact fun x hx => Expr.mem_postorder_select.2 (.inl hx)
    · exact fun x hx => Expr.mem_postorder_select.2 (.inr (.inl hx))
    · exact fun x hx => Expr.mem_postorder_select.2 (.inr (.inr (.inl hx)))
    · exact stampSelect_ends hi (node?_of_infer hrc hnc) (node?_of_infer hrt hnt)
        (node?_of_infer hrf hnf) hrule hc ht hf
  | reduce n op hint arg ih =>
    intro r hr hn c
    obtain ⟨ra, i, hra, -, rfl⟩ := infer_reduce_eq_ok.1 hr
    obtain ⟨hbelow, hi⟩ := knows_node.1 hn
    rw [stampExpr, Expr.postorder_reduce]
    refine info_ends hi (StateT.ends_bind
      (ends_escape (ih hra hbelow c) (List.subset_append_left _ _)) fun s c₁ hs => ?_)
    refine built_ends hi (fun m hm => .reduce hm hs.mirrors)
      (fun m => Expr.notes_reduce m op _ s) hs.marked ?_
    rw [Expr.postorder_reduce]
    exact List.forall_mem_append.2 ⟨hs.masked, List.forall_mem_singleton.2 fun h => by cases h⟩

/-- The body and the name of a declaration have been analyzed. -/
def Analyzed (a : Analysis) (registry : Registry) (d : Declaration Node) : Prop :=
  ∃ inputs decls r, infer ⟨inputs, registry, decls⟩ d.body = .ok r ∧ a.Knows r.nodes ∧
    a.decl? d.name = some r.info.stamp

/-- A stamped declaration that stands for a declaration of a graph. -/
structure Stands (a : Analysis) (registry : Registry) (d : Declaration Node) (sd : StampedDecl) :
    Prop where
  name_eq : sd.name = d.name
  kind_eq : sd.kind = d.kind
  span_eq : sd.span = d.span
  stamp_eq : a.decl? d.name = some sd.stamp
  mirrors : Mirrors registry a.Records d.body sd.body

/-- What some declarations are stamped to. -/
structure SettledDecls (a : Analysis) (registry : Registry) (ds : List (Declaration Node))
    (c : ModuleCounter) (sds : List StampedDecl) (c' : ModuleCounter) : Prop where
  stands : List.Forall₂ (Stands a registry) ds sds
  marked : Marked c (sds.flatMap fun sd => sd.body.notes) c'
  masked : ∀ x ∈ ds.flatMap fun d => d.body.postorder, ¬a.MaskEscapes x
  traits : ∀ d ∈ ds, ¬a.BadTrait d

/-- The fault of a selection or a trait among some declarations. -/
def Fails (a : Analysis) (ds : List (Declaration Node)) (e : Diagnostic) : Prop :=
  Escape a (ds.flatMap fun d => d.body.postorder) e ∨
    e.code = some .traitNotBoolean ∧ ∃ d ∈ ds, a.BadTrait d

theorem stampDecl_ends {registry : Registry} {d : Declaration Node} (hd : Analyzed a registry d)
    (topo : Nat) (c : ModuleCounter) :
    Except.Ends (fun p => SettledDecls a registry [d] c [p.1] p.2) (Fails a [d])
      (stampDecl a registry topo d c) := by
  obtain ⟨inputs, decls, r, hr, hn, hdecl⟩ := hd
  refine StateT.ends_bind ((settles d.body hr hn c).imp_fault fun e h => .inl ?_)
    fun s c₁ hs => ?_
  · rwa [List.flatMap_singleton]
  have hstamp : s.note.stamp = r.info.stamp := by
    obtain ⟨facts, hfacts, hstamp⟩ := hs.mirrors.note.stamp_eq
    cases (node?_of_infer hr hn).symm.trans hfacts
    exact hstamp
  have hbad : a.BadTrait d ↔ d.kind = .trait ∧ s.dtype ≠ .boolean := by
    rw [StampedExpr.dtype, hstamp]
    constructor
    · rintro ⟨hkind, stamp, hlookup, hne⟩
      cases hdecl.symm.trans hlookup
      exact ⟨hkind, hne⟩
    · exact fun h => ⟨h.1, _, hdecl, h.2⟩
  split
  · rename_i h
    exact .inr ⟨rfl, d, List.mem_singleton.2 rfl, hbad.2 h⟩
  · rename_i h
    refine ⟨.cons ⟨rfl, rfl, rfl, hstamp ▸ hdecl, hs.mirrors⟩ .nil, ?_, ?_,
      List.forall_mem_singleton.2 (hbad.not.2 h)⟩
    · rw [List.flatMap_singleton]
      exact hs.marked
    · rw [List.flatMap_singleton]
      exact hs.masked

theorem Fails.mono {ds ds' : List (Declaration Node)} {e : Diagnostic} (h : Fails a ds e)
    (hsub : ds ⊆ ds') : Fails a ds' e := by
  rcases h with h | ⟨hcode, d, hd, hbad⟩
  · refine .inl (h.mono fun x hx => ?_)
    obtain ⟨d, hd, hx⟩ := List.mem_flatMap.1 hx
    exact List.mem_flatMap.2 ⟨d, hsub hd, hx⟩
  · exact .inr ⟨hcode, d, hsub hd, hbad⟩

/-- The marks of later declarations are counted on from those of the earlier ones. -/
theorem SettledDecls.append {registry : Registry} {ds ds' : List (Declaration Node)}
    {sds sds' : List StampedDecl} {c c' c'' : ModuleCounter}
    (h : SettledDecls a registry ds c sds c') (h' : SettledDecls a registry ds' c' sds' c'') :
    SettledDecls a registry (ds ++ ds') c (sds ++ sds') c'' := by
  refine ⟨List.rel_append h.stands h'.stands, ?_, ?_,
    List.forall_mem_append.2 ⟨h.traits, h'.traits⟩⟩
  · rw [List.flatMap_append]
    exact h.marked.append h'.marked
  · rw [List.flatMap_append]
    exact List.forall_mem_append.2 ⟨h.masked, h'.masked⟩

/-- Declarations are settled one after the other, up to the first fault. -/
theorem stampDecls_ends {registry : Registry} {ds : List (Declaration Node)}
    (h : ∀ d ∈ ds, Analyzed a registry d) (topo : Nat) (c : ModuleCounter) :
    Except.Ends (fun sds => ∃ c', SettledDecls a registry ds c sds c') (Fails a ds)
      (stampDecls a registry topo c ds) := by
  induction ds generalizing topo c with
  | nil => exact ⟨c, .nil, .nil c, List.forall_mem_nil _, List.forall_mem_nil _⟩
  | cons d ds ih =>
    obtain ⟨hd, hds⟩ := List.forall_mem_cons.1 h
    have hfirst := stampDecl_ends hd topo c
    rw [stampDecls, StateT.run]
    cases hd : stampDecl a registry topo d c with
    | error e =>
      rw [hd] at hfirst
      exact hfirst.mono (List.cons_subset_cons _ (List.nil_subset _))
    | ok p =>
      rw [hd] at hfirst
      refine ((ih hds (topo + 1) p.2).imp_fault fun _ h =>
        h.mono (List.subset_cons_self _ _)).bind fun sds hrest => ?_
      obtain ⟨c', hrest⟩ := hrest
      exact ⟨c', hfirst.append hrest⟩

end Stamping

namespace StampedModule

open Analysis Stamping

/-- The nodes of a stamped module, each after its subexpressions. -/
def nodes (m : StampedModule) : List StampedExpr := m.decls.flatMap fun d => d.body.postorder

variable {ds : List (Declaration Span)} {g : Graph} {inputs : InputTable} {registry : Registry}
  {a : Analysis}

theorem analyzed_of_mem (hg : Graph.ofDeclarations ds = .ok g)
    (ha : Analysis.ofGraph g inputs registry = .ok a) :
    ∀ d ∈ g.declarations, Analyzed a registry d := by
  intro d hd
  obtain ⟨before, after, hd⟩ := List.append_of_mem hd
  obtain ⟨r, hr, hnodes, hdecl⟩ := exists_infer hg ha hd
  exact ⟨inputs, _, r, hr, hnodes, hdecl⟩

theorem ofGraph_ends (hg : Graph.ofDeclarations ds = .ok g)
    (ha : Analysis.ofGraph g inputs registry = .ok a) :
    Except.Ends (fun m => ∃ c', SettledDecls a registry g.declarations .zero m.decls c')
      (Fails a g.declarations) (ofGraph g a registry) :=
  (stampDecls_ends (analyzed_of_mem hg ha) 0 .zero).bind fun _ h => h

/-- What is counted through from zero has the number of its place. -/
theorem eq_of_map_range' {α β : Type} {f : α → β} {number : Nat → β} {l : List α} {n k : Nat}
    {x : α} (h : l.map f = (List.range' 0 n).map number) (hx : l[k]? = some x) :
    f x = number k := by
  have hk := congrArg (·[k]?) h
  simp only [List.getElem?_map, hx, Option.map_some] at hk
  obtain ⟨j, hj, heq⟩ := Option.map_eq_some_iff.1 hk.symm
  obtain ⟨hlt, rfl⟩ := List.getElem?_eq_some_iff.1 hj
  rw [← heq, List.getElem_range', Nat.zero_add, Nat.one_mul]

/-- Each node of a settled module is numbered by its place. -/
theorem place_of_settled {m : StampedModule} {c' : ModuleCounter} {count : Nat}
    (hsettled : SettledDecls a registry g.declarations .zero m.decls c')
    (hmirrors : List.Forall₂ (StampedExpr.Mirrors registry a.Records) g.nodes m.nodes)
    (hids : g.nodes.map (fun x => x.note.id) = Expr.numbers 0 count) {k : Nat} {s : StampedExpr}
    (hs : m.nodes[k]? = some s) :
    s.note.node = ⟨k⟩ ∧ s.note.value = ⟨k⟩ ∧ s.note.topo = k := by
  have hnodes : m.nodes.map (fun s => s.note.node) = Expr.numbers 0 count :=
    (map_eq_of_forall₂ hmirrors fun _ _ h => h.note.node_eq.symm).symm.trans hids
  have hnotes : (m.decls.flatMap fun d => d.body.notes) = m.nodes.map Expr.note := by
    rw [nodes, List.map_flatMap]
    rfl
  obtain ⟨hvalues, htopos, -⟩ := hsettled.marked
  rw [hnotes, List.map_map] at hvalues htopos
  rw [← List.map_id (List.range' _ _)] at htopos
  have hnode := eq_of_map_range' hnodes hs
  have hvalue := eq_of_map_range' hvalues hs
  have htopo := eq_of_map_range' htopos hs
  exact ⟨hnode, hvalue, htopo⟩

/-- Stamping agrees with the analysis. It fails just if the mask of a selection is no prefix of
branches that vary over something, or a trait is not boolean. Otherwise the module has the nodes of
the graph, in the same shape and with the stamps of the analysis, what a reduction reduces ends the
axes of its argument, and all numbers of a node say its place in the order of evaluation. -/
theorem ofGraph_agrees_with_analysis (hg : Graph.ofDeclarations ds = .ok g)
    (ha : Analysis.ofGraph g inputs registry = .ok a) :
    (∀ e, ofGraph g a registry = .error e →
      e.code.map Code.text = some "E0101" ∧ (∃ x ∈ g.nodes, a.MaskEscapes x) ∨
      e.code.map Code.text = some "E0108" ∧ ∃ d ∈ g.declarations, a.BadTrait d) ∧
    ((∃ e, ofGraph g a registry = .error e) ↔
      (∃ x ∈ g.nodes, a.MaskEscapes x) ∨ ∃ d ∈ g.declarations, a.BadTrait d) ∧
    ∀ m, ofGraph g a registry = .ok m →
      List.Forall₂ (Stands a registry) g.declarations m.decls ∧
      List.Forall₂ (StampedExpr.Mirrors registry a.Records) g.nodes m.nodes ∧
      (∀ mark op reduced arg, .reduce mark op reduced arg ∈ m.nodes →
        StampedExpr.axes arg = mark.stamp.axes ++ reduced) ∧
      ∀ (k : Nat) (s : StampedExpr), m.nodes[k]? = some s →
        s.note.node = ⟨k⟩ ∧ s.note.value = ⟨k⟩ ∧ s.note.topo = k := by
  have hends := ofGraph_ends hg ha
  have hfails : ∀ e, ofGraph g a registry = .error e →
      e.code.map Code.text = some "E0101" ∧ (∃ x ∈ g.nodes, a.MaskEscapes x) ∨
      e.code.map Code.text = some "E0108" ∧ ∃ d ∈ g.declarations, a.BadTrait d := by
    intro e he
    rw [he] at hends
    rcases hends with ⟨hcode, hmask⟩ | ⟨hcode, htrait⟩
    · exact .inl ⟨by rw [hcode]; rfl, hmask⟩
    · exact .inr ⟨by rw [hcode]; rfl, htrait⟩
  refine ⟨hfails, ⟨fun ⟨e, he⟩ => (hfails e he).imp And.right And.right, fun h => ?_⟩,
    fun m hm => ?_⟩
  · cases hm : ofGraph g a registry with
    | error e => exact ⟨e, rfl⟩
    | ok m =>
      rw [hm] at hends
      obtain ⟨c', hsettled⟩ := hends
      rcases h with ⟨x, hx, hmask⟩ | ⟨d, hd, hbad⟩
      · exact absurd hmask (hsettled.masked x hx)
      · exact absurd hbad (hsettled.traits d hd)
  · rw [hm] at hends
    obtain ⟨c', hsettled⟩ := hends
    have hmirrors : List.Forall₂ (StampedExpr.Mirrors registry a.Records) g.nodes m.nodes :=
      forall₂_flatMap hsettled.stands fun d _ sd hd => hd.mirrors.postorder
    refine ⟨hsettled.stands, hmirrors, fun mark op reduced arg hmem => ?_, fun k s hs => ?_⟩
    · obtain ⟨sd, hsd, hmem⟩ := List.mem_flatMap.1 hmem
      obtain ⟨known, hbody, -⟩ := (consistent_ofGraph hg ha hm).bodies.exists_of_mem hsd
      cases hbody.of_mem_postorder hmem with
      | reduce haxes _ _ => exact haxes
    · obtain ⟨count, hids⟩ := map_fst_ofGraph hg ha
      rw [map_fst_nodes_ofGraph ha] at hids
      exact place_of_settled hsettled hmirrors hids hs

/-- Each line of an order is a case of its own, but the value to choose is one per order. -/
def perLineMask : List (Declaration Span) :=
  [⟨"chosen", .value, .select .zero
    (.call .zero "ge" [.input .zero ["orders", "lines", "quantity"],
      .input .zero ["orders", "limit"]])
    (.input .zero ["orders", "limit"]) (.constant .zero (.integer 0)), .zero⟩]

/-- The analysis broadcasts a value per order to a mask per line, but the stamper does not. A mask
over the lines may choose between values over the lines. -/
theorem perLineMask_escapes :
    (∃ g a m, Graph.ofDeclarations keptAmounts = .ok g ∧
      Analysis.ofGraph g orderInputs .builtins = .ok a ∧ ofGraph g a .builtins = .ok m ∧
      List.Forall₂ (StampedExpr.Mirrors .builtins a.Records) g.nodes m.nodes) ∧
    ∃ g a e, Graph.ofDeclarations perLineMask = .ok g ∧
      Analysis.ofGraph g orderInputs .builtins = .ok a ∧ ofGraph g a .builtins = .error e ∧
      ∃ x ∈ g.nodes, a.MaskEscapes x := by
  constructor
  · have hg : Graph.ofDeclarations keptAmounts = .ok ⟨Graph.numberFrom 0 keptAmounts⟩ := rfl
    obtain ⟨a, ha, hm⟩ : ∃ a,
        Analysis.ofGraph ⟨Graph.numberFrom 0 keptAmounts⟩ orderInputs .builtins = .ok a ∧
        ((ofGraph ⟨Graph.numberFrom 0 keptAmounts⟩ a .builtins).toOption.any fun _ => true) =
          true := Except.exists_of_any (by decide +kernel)
    obtain ⟨m, hm, -⟩ := Except.exists_of_any hm
    exact ⟨_, a, m, hg, ha, hm, ((ofGraph_agrees_with_analysis hg ha).2.2 m hm).2.1⟩
  · have hg : Graph.ofDeclarations perLineMask = .ok ⟨Graph.numberFrom 0 perLineMask⟩ := rfl
    obtain ⟨a, ha, hnone⟩ : ∃ a,
        Analysis.ofGraph ⟨Graph.numberFrom 0 perLineMask⟩ orderInputs .builtins = .ok a ∧
        (ofGraph ⟨Graph.numberFrom 0 perLineMask⟩ a .builtins).toOption.isNone = true :=
      Except.exists_of_any (by decide +kernel)
    cases he : ofGraph ⟨Graph.numberFrom 0 perLineMask⟩ a .builtins with
    | ok m =>
      rw [he] at hnone
      cases hnone
    | error e =>
      have hfails := (ofGraph_agrees_with_analysis hg ha).2.1.1 ⟨e, he⟩
      refine ⟨_, a, e, hg, ha, he, hfails.resolve_right ?_⟩
      rintro ⟨d, hd, hkind, -⟩
      cases List.mem_singleton.1 hd
      cases hkind

end StampedModule
end LoopNest
