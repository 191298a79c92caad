import LoopNest.Proofs.Analysis.Entries
import LoopNest.Proofs.AxisVectors
import LoopNest.Proofs.Stamp.Typing

/-! What stamps say. A stamped expression is consistent if the axes on each node follow from those
on its subexpressions: calls, tuples and selections have the least upper bound, and a reduction has
what is left of its argument's axes. What the stamper makes of an analyzed graph is consistent. -/
namespace LoopNest

namespace StampedExpr

/-- The axes on each node follow from those on its subexpressions, given the inputs and the stamps
of the declarations before. -/
inductive Consistent (inputs : InputTable) (decls : List (String × Stamp)) : StampedExpr → Prop
  | constant {m : Mark} {v : Literal} : m.stamp.axes = [] → Consistent inputs decls (.constant m v)
  | input {m : Mark} {path : FieldPath} {entry : InputEntry} :
    inputs.find? path = some entry → entry.axes = m.stamp.axes →
    Consistent inputs decls (.input m path)
  | ref {m : Mark} {name : String} {stamp : Stamp} :
    decls.lookup name = some stamp → stamp.axes = m.stamp.axes →
    Consistent inputs decls (.ref m name)
  | call {m : Mark} {func : String} {args : List StampedExpr} :
    Axes.lub (args.map axes) = .ok m.stamp.axes → (∀ a ∈ args, Consistent inputs decls a) →
    Consistent inputs decls (.call m func args)
  | tuple {m : Mark} {elems : List StampedExpr} :
    Axes.lub (elems.map axes) = .ok m.stamp.axes → (∀ a ∈ elems, Consistent inputs decls a) →
    Consistent inputs decls (.tuple m elems)
  | select {m : Mark} {c t f : StampedExpr} :
    Axes.lub [c.axes, t.axes, f.axes] = .ok m.stamp.axes → Consistent inputs decls c →
    Consistent inputs decls t → Consistent inputs decls f →
    Consistent inputs decls (.select m c t f)
  | reduce {m : Mark} {op : String} {reduced : Axes} {arg : StampedExpr} :
    arg.axes = m.stamp.axes ++ reduced → (reduced = [] → arg.axes = []) →
    Consistent inputs decls arg → Consistent inputs decls (.reduce m op reduced arg)

/-- The subexpressions are consistent, too. -/
theorem Consistent.of_mem_postorder {inputs : InputTable} {decls : List (String × Stamp)}
    {e x : StampedExpr} (h : e.Consistent inputs decls) (hx : x ∈ e.postorder) :
    x.Consistent inputs decls := by
  induction h with
  | constant haxes =>
    cases List.mem_singleton.1 hx
    exact .constant haxes
  | input hfind haxes =>
    cases List.mem_singleton.1 hx
    exact .input hfind haxes
  | ref hlookup haxes =>
    cases List.mem_singleton.1 hx
    exact .ref hlookup haxes
  | call hlub hargs ih =>
    rcases Expr.mem_postorder_call.1 hx with ⟨a, ha, hx⟩ | rfl
    · exact ih a ha hx
    · exact .call hlub hargs
  | tuple hlub helems ih =>
    rcases Expr.mem_postorder_tuple.1 hx with ⟨a, ha, hx⟩ | rfl
    · exact ih a ha hx
    · exact .tuple hlub helems
  | select hlub hc ht hf ihc iht ihf =>
    rcases Expr.mem_postorder_select.1 hx with hx | hx | hx | rfl
    · exact ihc hx
    · exact iht hx
    · exact ihf hx
    · exact .select hlub hc ht hf
  | reduce happ hnil harg ih =>
    rcases Expr.mem_postorder_reduce.1 hx with hx | rfl
    · exact ih hx
    · exact .reduce happ hnil harg

/-- An input that is read has an entry with its axes. -/
theorem Consistent.exists_entry {inputs : InputTable} {decls : List (String × Stamp)}
    {e : StampedExpr} (h : e.Consistent inputs decls) :
    ∀ u ∈ inputUses e, ∃ entry, inputs.find? u.path = some entry ∧ entry.axes = u.axes := by
  induction h with
  | constant _ | ref _ _ =>
    rw [inputUses]
    exact List.forall_mem_nil _
  | input hfind haxes =>
    rw [inputUses]
    intro u hu
    rw [List.mem_singleton.1 hu]
    exact ⟨_, hfind, haxes⟩
  | call _ _ ih | tuple _ _ ih =>
    rw [inputUses, inputUsesAll_eq]
    intro u hu
    obtain ⟨a, ha, hu⟩ := List.mem_flatMap.1 hu
    exact ih a ha u hu
  | select _ _ _ _ ihc iht ihf =>
    rw [inputUses]
    exact List.forall_mem_append.2 ⟨ihc, List.forall_mem_append.2 ⟨iht, ihf⟩⟩
  | reduce _ _ _ ih =>
    rw [inputUses]
    exact ih

end StampedExpr

namespace Stamping

theorem mark_eq_ok {n : Node} {stamp : Stamp} {plan : Option Plan} {c c' : ModuleCounter} {m : Mark}
    (h : mark n stamp plan c = .ok (m, c')) : m.stamp = stamp := by
  cases h
  rfl

theorem info_eq_ok {a : Analysis} {n : Node} {c c' : ModuleCounter} {i : NodeFacts}
    (h : info a n c = .ok (i, c')) : a.node? n.id = some i := by
  cases hi : a.node? n.id with
  | none =>
    simp only [info, hi] at h
    cases h
  | some i' =>
    simp only [info, hi] at h
    cases h
    rfl

/-- The axes of a selection are the least upper bound of those of its operands. -/
theorem selectAxes_eq_ok {c t f axes : Axes} (h : selectAxes c t f = .ok axes) :
    Axes.lub [c, t, f] = .ok axes := by
  rw [selectAxes] at h
  split at h
  · cases h
  · rename_i hnil
    cases h
    have ht := List.prefix_nil.1 (Axes.prefix_of_lub hnil (v := t) (by simp))
    have hf := List.prefix_nil.1 (Axes.prefix_of_lub hnil (v := f) (by simp))
    subst ht hf
    rw [Axes.lub_eq_ok_iff]
    simp
  · rename_i branches hb
    split at h
    · rename_i hmask
      cases h
      obtain ⟨hall, hmem⟩ := Axes.lub_eq_ok_iff.1 hb
      refine Axes.lub_eq_ok_iff.2 ⟨fun v hv => ?_, ?_⟩
      · rcases List.mem_cons.1 hv with rfl | hv
        · exact List.isPrefixOf_iff_prefix.1 hmask
        · exact hall v hv
      · exact .inl (List.mem_cons_of_mem _ (hmem.resolve_right fun h => by cases h.1))
    · cases h

end Stamping

namespace Analysis

/-- What is reduced ends the axes of the argument, and is nothing only for a scalar. -/
theorem reducedAxes_eq_ok {hint : Option Axes} {argument axes : Axes} {r : Reduction} {span : Span}
    (h : reducedAxes hint argument span = .ok (axes, r)) :
    argument = axes ++ r.reduced ∧ (r.reduced = [] → argument = []) := by
  have innermost : argument = argument.dropLast ++ argument.getLast?.toList ∧
      (argument.getLast?.toList = [] → argument = []) := by
    rcases List.eq_nil_or_concat argument with rfl | ⟨rest, last, rfl⟩
    · simp
    · simp
  unfold reducedAxes at h
  split at h
  · cases h
    exact innermost
  · cases h
    exact innermost
  · rename_i reduced hne
    split at h
    · rename_i rest hrest
      cases h
      refine ⟨Axes.eq_append_of_dropTail? hrest, fun hnil => ?_⟩
      subst hnil
      exact absurd rfl hne
    · cases h

theorem reduceRule_eq_ok {f : Signature} {hint : Option Axes} {args : List NodeFacts} {span : Span}
    {i : NodeFacts} (h : reduceRule f hint args span = .ok i) :
    ∃ arg r, args = [arg] ∧ i.reduction = some r ∧ arg.axes = i.axes ++ r.reduced ∧
      (r.reduced = [] → arg.axes = []) := by
  unfold reduceRule at h
  split at h
  · rename_i arg
    obtain ⟨⟨axes, r⟩, hr, h⟩ := Except.bind_eq_ok.1 h
    obtain ⟨dtype, -, h⟩ := Except.bind_eq_ok.1 h
    cases h
    obtain ⟨happ, hnil⟩ := reducedAxes_eq_ok hr
    exact ⟨arg, r, rfl, rfl, happ, hnil⟩
  · cases h

theorem explicitReduceRule_eq_ok {env : Env} {op : String} {hint : Option Axes} {arg i : NodeFacts}
    {span : Span} (h : explicitReduceRule env op hint arg span = .ok i) :
    ∃ r, i.reduction = some r ∧ arg.axes = i.axes ++ r.reduced ∧
      (r.reduced = [] → arg.axes = []) := by
  obtain ⟨f, -, h⟩ := Except.bind_eq_ok.1 h
  split at h
  · obtain ⟨arg', r, harg, hr, happ, hnil⟩ := reduceRule_eq_ok h
    cases harg
    exact ⟨r, hr, happ, hnil⟩
  · cases h

theorem inputRule_eq_ok {env : Env} {path : FieldPath} {span : Span} {i : NodeFacts}
    (h : inputRule env path span = .ok i) :
    ∃ entry, env.inputs.find? path = some entry ∧ .leaf entry.axes entry.dtype = i := by
  rw [inputRule] at h
  split at h
  · rename_i entry hentry
    cases h
    exact ⟨entry, hentry, rfl⟩
  · cases h

theorem refRule_eq_ok {env : Env} {name : String} {span : Span} {i : NodeFacts}
    (h : refRule env name span = .ok i) :
    ∃ stamp, env.decls.lookup name = some stamp ∧ .leaf stamp.axes stamp.dtype = i := by
  rw [refRule] at h
  split at h
  · rename_i stamp hstamp
    cases h
    exact ⟨stamp, hstamp, rfl⟩
  · cases h

theorem combinedAxes_eq_ok {args : List NodeFacts} {span : Span} {axes : Axes}
    (h : combinedAxes args span = .ok axes) : Axes.lub (args.map NodeFacts.axes) = .ok axes := by
  rw [combinedAxes] at h
  split at h
  · rename_i axes' hl
    cases h
    exact hl
  · cases h

theorem tupleRule_eq_ok {args : List NodeFacts} {span : Span} {i : NodeFacts}
    (h : tupleRule args span = .ok i) : Axes.lub (args.map NodeFacts.axes) = .ok i.axes := by
  obtain ⟨axes, ha, h⟩ := Except.bind_eq_ok.1 h
  cases h
  exact combinedAxes_eq_ok ha

theorem selectRule_eq_ok {c t f i : NodeFacts} {span : Span}
    (h : selectRule c t f span = .ok i) : Axes.lub [c.axes, t.axes, f.axes] = .ok i.axes := by
  obtain ⟨axes, ha, h⟩ := Except.bind_eq_ok.1 h
  split at h
  · split at h
    · cases h
      exact combinedAxes_eq_ok ha
    · cases h
  · cases h

end Analysis
namespace Stamping

/-- The stamper finds what the analysis found: an expression with the inferred stamp, whose axes and
types follow from one another, and that reads no other inputs. -/
structure Faithful (env : Analysis.Env) (e : GraphExpr) (stamp : Stamp) (s : StampedExpr) :
    Prop where
  stamp_eq : s.note.stamp = stamp
  consistent : s.Consistent env.inputs env.decls
  typed : s.Typed env.inputs env.registry env.decls
  uses : ∀ u ∈ StampedExpr.inputUses s, ∃ n, .input n u.path ∈ e.postorder

def Agrees (env : Analysis.Env) (a : Analysis) (e : GraphExpr) : Prop :=
  ∀ {r : Analysis.Inference} {s : StampedExpr} {c c' : ModuleCounter},
    Analysis.infer env e = .ok r → (∀ p ∈ r.nodes, a.node? p.1 = some p.2) →
    stampExpr a env.registry e c = .ok (s, c') → Faithful env e r.info.stamp s

variable {env : Analysis.Env} {a : Analysis}

theorem info_node {n : Node} {below : List (NodeId × NodeFacts)} {facts i : NodeFacts}
    {c c' : ModuleCounter}
    (hn : ∀ p ∈ (Analysis.Inference.node n below facts).nodes, a.node? p.1 = some p.2)
    (hi : info a n c = .ok (i, c')) : i = facts := by
  have hfacts := hn (n.id, facts) (List.mem_append_right _ List.mem_cons_self)
  rw [info_eq_ok hi] at hfacts
  cases hfacts
  rfl

/-- A leaf is marked with the facts that were inferred for it. -/
theorem leaf_eq_ok {n : Node} {facts : NodeFacts} {leaf : Mark → StampedExpr} {s : StampedExpr}
    {c c' : ModuleCounter}
    (hn : ∀ p ∈ (Analysis.Inference.node n [] facts).nodes, a.node? p.1 = some p.2)
    (hs : (do let i ← info a n; return leaf (← mark n i.stamp none) : Marking StampedExpr) c =
      .ok (s, c')) :
    ∃ m, s = leaf m ∧ m.stamp = facts.stamp := by
  obtain ⟨i, c₁, hi, hs⟩ := StateT.bind_eq_ok.1 hs
  obtain ⟨m, c₂, hm, hs⟩ := StateT.bind_eq_ok.1 hs
  cases hs
  obtain rfl := info_node hn hi
  exact ⟨m, rfl, mark_eq_ok hm⟩

/-- The stamper finds what the analysis found for each of some arguments. -/
structure FaithfulAll (env : Analysis.Env) (es : List GraphExpr) (infos : List NodeFacts)
    (ss : List StampedExpr) : Prop where
  stamps : ss.map (fun s => s.note.stamp) = infos.map NodeFacts.stamp
  consistent : ∀ s ∈ ss, s.Consistent env.inputs env.decls
  typed : ∀ s ∈ ss, s.Typed env.inputs env.registry env.decls
  uses : ∀ u ∈ ss.flatMap StampedExpr.inputUses, ∃ n, ∃ e ∈ es, .input n u.path ∈ e.postorder

namespace FaithfulAll

variable {es : List GraphExpr} {infos : List NodeFacts} {ss : List StampedExpr}

theorem axes (h : FaithfulAll env es infos ss) :
    ss.map StampedExpr.axes = infos.map NodeFacts.axes := by
  have := congrArg (List.map Stamp.axes) h.stamps
  rwa [List.map_map, List.map_map] at this

theorem dtypes (h : FaithfulAll env es infos ss) :
    ss.map StampedExpr.dtype = infos.map NodeFacts.dtype := by
  have := congrArg (List.map Stamp.dtype) h.stamps
  rwa [List.map_map, List.map_map] at this

end FaithfulAll

theorem agrees_all {es : List GraphExpr} (h : ∀ e ∈ es, Agrees env a e)
    {rs : List Analysis.Inference} {ss : List StampedExpr} {c c' : ModuleCounter}
    (hrs : List.Forall₂ (fun e r => Analysis.infer env e = .ok r) es rs)
    (hn : ∀ p ∈ rs.flatMap Analysis.Inference.nodes, a.node? p.1 = some p.2)
    (hs : stampAll a env.registry es c = .ok (ss, c')) :
    FaithfulAll env es (rs.map Analysis.Inference.info) ss := by
  induction hrs generalizing ss c with
  | nil =>
    cases hs
    exact ⟨rfl, List.forall_mem_nil _, List.forall_mem_nil _, List.forall_mem_nil _⟩
  | @cons e r es rs hr _ ih =>
    obtain ⟨he, hes⟩ := List.forall_mem_cons.1 h
    rw [List.flatMap_cons, List.forall_mem_append] at hn
    rw [stampAll] at hs
    obtain ⟨s, c₁, hs₁, hs⟩ := StateT.bind_eq_ok.1 hs
    obtain ⟨ss', c₂, hs₂, hs⟩ := StateT.bind_eq_ok.1 hs
    cases hs
    have hfirst := he hr hn.1 hs₁
    have hrest := ih hes hn.2 hs₂
    refine ⟨by rw [List.map_cons, List.map_cons, List.map_cons, hfirst.stamp_eq, hrest.stamps],
      List.forall_mem_cons.2 ⟨hfirst.consistent, hrest.consistent⟩,
      List.forall_mem_cons.2 ⟨hfirst.typed, hrest.typed⟩, ?_⟩
    rw [List.flatMap_cons]
    refine List.forall_mem_append.2 ⟨fun u hu => ?_, fun u hu => ?_⟩
    · obtain ⟨n, hmem⟩ := hfirst.uses u hu
      exact ⟨n, e, List.mem_cons_self, hmem⟩
    · obtain ⟨n, e', he', hmem⟩ := hrest.uses u hu
      exact ⟨n, e', List.mem_cons_of_mem _ he', hmem⟩

/-- The node of a call is the reduction or the call that the rule of its function wants. -/
theorem stampCall_eq_ok {n : Node} {func : String} {es : List GraphExpr} {infos : List NodeFacts}
    {i : NodeFacts} {ss : List StampedExpr} {s : StampedExpr} {c c' : ModuleCounter}
    (hrule : Analysis.callRule env func infos n.span = .ok i) (hss : FaithfulAll env es infos ss)
    (hs : stampCall env.registry i n func ss c = .ok (s, c')) :
    Faithful env (.call n func es) i.stamp s := by
  have huses : ∀ u ∈ ss.flatMap StampedExpr.inputUses,
      ∃ m, .input m u.path ∈ (Expr.call n func es : GraphExpr).postorder := by
    intro u hu
    obtain ⟨m, e, he, hmem⟩ := hss.uses u hu
    exact ⟨m, Expr.mem_postorder_call.2 (.inl ⟨e, he, hmem⟩)⟩
  obtain ⟨f, hfind, hdtype⟩ := Analysis.dtype_callRule hrule
  obtain ⟨f', hf, hrule⟩ := Except.bind_eq_ok.1 hrule
  cases hfind.symm.trans (Analysis.function_eq_ok hf)
  -- elementwise functions and constructors broadcast their arguments
  have broadcast : ∀ {plan : Option Plan}, f.kind ≠ .reduce →
      (do return .call (← mark n i.stamp plan) func ss : Marking StampedExpr) c = .ok (s, c') →
      Faithful env (.call n func es) i.stamp s := by
    intro plan hk hs
    obtain ⟨m, c₁, hm, hs⟩ := StateT.bind_eq_ok.1 hs
    cases hs
    have hlub : Axes.lub (infos.map NodeFacts.axes) = .ok i.axes := by
      cases hkind : f.kind with
      | reduce => exact absurd hkind hk
      | elementwise | constructor =>
        rw [hkind] at hrule
        obtain ⟨axes, ha, hrule⟩ := Except.bind_eq_ok.1 hrule
        obtain ⟨dtype, -, hrule⟩ := Except.bind_eq_ok.1 hrule
        cases hrule
        exact Analysis.combinedAxes_eq_ok ha
    have hm := mark_eq_ok hm
    refine ⟨hm, .call ?_ hss.consistent, .call hfind ?_ hss.typed, ?_⟩
    · rw [hm, hss.axes]
      exact hlub
    · rw [hm, hss.dtypes]
      exact hdtype
    · rw [StampedExpr.inputUses, StampedExpr.inputUsesAll_eq]
      exact huses
  cases hkind : f.kind with
  | elementwise =>
    simp only [stampCall, hfind, Option.map_some, hkind] at hs
    exact broadcast (by simp [hkind]) hs
  | constructor =>
    simp only [stampCall, hfind, Option.map_some, hkind] at hs
    exact broadcast (by simp [hkind]) hs
  | reduce =>
    rw [hkind] at hrule
    obtain ⟨arg, r, rfl, hr, happ, hnil⟩ := Analysis.reduceRule_eq_ok hrule
    obtain ⟨sarg, rfl⟩ : ∃ x, ss = [x] := by
      have hlen := congrArg List.length hss.stamps
      simp only [List.length_map, List.length_singleton] at hlen
      exact List.length_eq_one_iff.1 hlen
    simp only [stampCall, hfind, Option.map_some, hkind, hr] at hs
    obtain ⟨m, c₁, hm, hs⟩ := StateT.bind_eq_ok.1 hs
    cases hs
    have hm := mark_eq_ok hm
    have harg : sarg.axes = arg.axes := by simpa using hss.axes
    have hargd : sarg.dtype = arg.dtype := by simpa using hss.dtypes
    refine ⟨hm, .reduce ?_ ?_ (hss.consistent sarg List.mem_cons_self),
      .reduce hfind ?_ (hss.typed sarg List.mem_cons_self), ?_⟩
    · rw [hm, harg]
      exact happ
    · intro hr
      rw [harg]
      exact hnil hr
    · rw [hm, hargd]
      exact hdtype
    · rw [StampedExpr.inputUses]
      simpa using huses

/-- A selection has the axes that were inferred for it, since both rules give the least upper bound
of its operands. -/
theorem stampSelect_eq_ok {n : Node} {i ic it iF : NodeFacts} {c t f : GraphExpr}
    {sc st sf s : StampedExpr} {k k' : ModuleCounter}
    (hrule : Analysis.selectRule ic it iF n.span = .ok i) (hc : Faithful env c ic.stamp sc)
    (ht : Faithful env t it.stamp st) (hf : Faithful env f iF.stamp sf)
    (hs : stampSelect i n sc st sf k = .ok (s, k')) :
    Faithful env (.select n c t f) i.stamp s := by
  cases haxes : selectAxes sc.axes st.axes sf.axes with
  | error fault =>
    simp only [stampSelect, haxes] at hs
    cases hs
  | ok axes =>
    simp only [stampSelect, haxes] at hs
    obtain ⟨m, k₁, hm, hs⟩ := StateT.bind_eq_ok.1 hs
    cases hs
    have hm := mark_eq_ok hm
    have hsel := selectAxes_eq_ok haxes
    have heq : axes = i.axes := by
      have hlub := Analysis.selectRule_eq_ok hrule
      rw [StampedExpr.axes, StampedExpr.axes, StampedExpr.axes, hc.stamp_eq, ht.stamp_eq,
        hf.stamp_eq] at hsel
      cases hsel.symm.trans hlub
      rfl
    subst heq
    obtain ⟨hbool, hpromote⟩ := Analysis.dtype_selectRule hrule
    refine ⟨hm, .select (by rw [hm]; exact hsel) hc.consistent ht.consistent hf.consistent,
      .select ?_ ?_ hc.typed ht.typed hf.typed, ?_⟩
    · rw [StampedExpr.dtype, hc.stamp_eq]
      exact hbool
    · rw [StampedExpr.dtype, StampedExpr.dtype, ht.stamp_eq, hf.stamp_eq, hm]
      exact hpromote
    · rw [StampedExpr.inputUses]
      simp only [Expr.mem_postorder_select]
      refine List.forall_mem_append.2 ⟨fun u hu => ?_, List.forall_mem_append.2
        ⟨fun u hu => ?_, fun u hu => ?_⟩⟩
      · obtain ⟨n, hmem⟩ := hc.uses u hu
        exact ⟨n, .inl hmem⟩
      · obtain ⟨n, hmem⟩ := ht.uses u hu
        exact ⟨n, .inr (.inl hmem)⟩
      · obtain ⟨n, hmem⟩ := hf.uses u hu
        exact ⟨n, .inr (.inr (.inl hmem))⟩

theorem agrees (e : GraphExpr) : Agrees env a e := by
  induction e using Expr.induction with
  | constant n v =>
    intro r s c c' hr hn hs
    cases hr
    obtain ⟨m, rfl, hm⟩ := leaf_eq_ok hn hs
    exact ⟨hm, .constant (by rw [hm]; rfl), .constant (by rw [hm]; rfl), fun u hu => nomatch hu⟩
  | input n path =>
    intro r s c c' hr hn hs
    obtain ⟨facts, hrule, rfl⟩ := Analysis.infer_leaf_eq_ok.1 hr
    obtain ⟨m, rfl, hm⟩ := leaf_eq_ok hn hs
    obtain ⟨entry, hentry, rfl⟩ := Analysis.inputRule_eq_ok hrule
    refine ⟨hm, .input hentry (by rw [hm]; rfl), .input hentry (by rw [hm]; rfl), fun u hu => ?_⟩
    cases List.mem_singleton.1 hu
    exact ⟨n, List.mem_singleton.2 rfl⟩
  | ref n name =>
    intro r s c c' hr hn hs
    obtain ⟨facts, hrule, rfl⟩ := Analysis.infer_leaf_eq_ok.1 hr
    obtain ⟨m, rfl, hm⟩ := leaf_eq_ok hn hs
    obtain ⟨stamp, hstamp, rfl⟩ := Analysis.refRule_eq_ok hrule
    exact ⟨hm, .ref hstamp (by rw [hm]; rfl), .ref hstamp (by rw [hm]; rfl), fun u hu => nomatch hu⟩
  | call n func args ih =>
    intro r s c c' hr hn hs
    obtain ⟨rs, facts, hrs, hrule, rfl⟩ := Analysis.infer_call_eq_ok.1 hr
    rw [stampExpr] at hs
    obtain ⟨i, c₁, hi, hs⟩ := StateT.bind_eq_ok.1 hs
    obtain ⟨ss, c₂, hss, hs⟩ := StateT.bind_eq_ok.1 hs
    obtain rfl := info_node hn hi
    have hargs := agrees_all ih hrs (fun p hp => hn p (List.mem_append_left _ hp)) hss
    exact stampCall_eq_ok hrule hargs hs
  | tuple n elems ih =>
    intro r s c c' hr hn hs
    obtain ⟨rs, facts, hrs, hrule, rfl⟩ := Analysis.infer_tuple_eq_ok.1 hr
    rw [stampExpr] at hs
    obtain ⟨i, c₁, hi, hs⟩ := StateT.bind_eq_ok.1 hs
    obtain ⟨ss, c₂, hss, hs⟩ := StateT.bind_eq_ok.1 hs
    obtain ⟨m, c₃, hm, hs⟩ := StateT.bind_eq_ok.1 hs
    cases hs
    obtain rfl := info_node hn hi
    have hm := mark_eq_ok hm
    have helems := agrees_all ih hrs (fun p hp => hn p (List.mem_append_left _ hp)) hss
    refine ⟨hm, .tuple ?_ helems.consistent, .tuple ?_ helems.typed, ?_⟩
    · rw [hm, helems.axes]
      exact Analysis.tupleRule_eq_ok hrule
    · rw [hm, helems.dtypes]
      exact Analysis.dtype_tupleRule hrule
    · rw [StampedExpr.inputUses, StampedExpr.inputUsesAll_eq]
      intro u hu
      obtain ⟨k, e, he, hmem⟩ := helems.uses u hu
      exact ⟨k, Expr.mem_postorder_tuple.2 (.inl ⟨e, he, hmem⟩)⟩
  | select n c t f ihc iht ihf =>
    intro r s k k' hr hn hs
    obtain ⟨rc, rt, rf, facts, hrc, hrt, hrf, hrule, rfl⟩ := Analysis.infer_select_eq_ok.1 hr
    rw [stampExpr] at hs
    obtain ⟨i, k₁, hi, hs⟩ := StateT.bind_eq_ok.1 hs
    obtain ⟨sc, k₂, hsc, hs⟩ := StateT.bind_eq_ok.1 hs
    obtain ⟨st, k₃, hst, hs⟩ := StateT.bind_eq_ok.1 hs
    obtain ⟨sf, k₄, hsf, hs⟩ := StateT.bind_eq_ok.1 hs
    obtain rfl := info_node hn hi
    simp only [Analysis.Inference.node, List.mem_append] at hn
    have hc := ihc hrc (fun p hp => hn p (.inl (.inl hp))) hsc
    have ht := iht hrt (fun p hp => hn p (.inl (.inr (.inl hp)))) hst
    have hf := ihf hrf (fun p hp => hn p (.inl (.inr (.inr hp)))) hsf
    exact stampSelect_eq_ok hrule hc ht hf hs
  | reduce n op hint arg ih =>
    intro r s c c' hr hn hs
    obtain ⟨ra, facts, hra, hrule, rfl⟩ := Analysis.infer_reduce_eq_ok.1 hr
    rw [stampExpr] at hs
    obtain ⟨i, c₁, hi, hs⟩ := StateT.bind_eq_ok.1 hs
    obtain ⟨sa, c₂, hsa, hs⟩ := StateT.bind_eq_ok.1 hs
    obtain ⟨m, c₃, hm, hs⟩ := StateT.bind_eq_ok.1 hs
    cases hs
    obtain rfl := info_node hn hi
    have hm := mark_eq_ok hm
    have ha := ih hra (fun p hp => hn p (List.mem_append_left _ hp)) hsa
    obtain ⟨red, hred, happ, hnil⟩ := Analysis.explicitReduceRule_eq_ok hrule
    obtain ⟨f, hfind, hdtype⟩ := Analysis.dtype_explicitReduceRule hrule
    have haxes : sa.axes = ra.info.axes := by rw [StampedExpr.axes, ha.stamp_eq]; rfl
    have hargd : sa.dtype = ra.info.dtype := by rw [StampedExpr.dtype, ha.stamp_eq]; rfl
    refine ⟨hm, .reduce ?_ ?_ ha.consistent, .reduce hfind ?_ ha.typed, fun u hu => ?_⟩
    · rw [hm, haxes, hred]
      exact happ
    · rw [haxes, hred]
      exact hnil
    · rw [hm, hargd]
      exact hdtype
    · obtain ⟨k, hmem⟩ := ha.uses u hu
      exact ⟨k, Expr.mem_postorder_reduce.2 (.inl hmem)⟩

end Stamping
end LoopNest
