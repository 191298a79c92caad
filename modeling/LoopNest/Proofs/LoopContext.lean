import LoopNest.Proofs.Code.Visibility
import LoopNest.Proofs.Validity
import LoopNest.Proofs.WellTyped
import Mathlib.Logic.Relation

/-! The loops that are open where a declaration yields. They are the first ones that its code opens,
and run over the axes of the declaration. Lowering comes to the yield with these loops open because
it leaves the open loops as they were at each expression on its way. -/
namespace LoopNest

namespace Lowering

open Emission

variable {env : Env} {inputs : InputTable} {decls : List (String × Stamp)} {uses : List InputUse}
  {st st' : Emission} {e : StampedExpr}

/-- While one expression is lowered from a state, an operand of it is lowered from another. -/
inductive Descends (env : Env) : StampedExpr × Emission → StampedExpr × Emission → Prop
  | call {m : Mark} {func : String} {before after : List StampedExpr} {a : StampedExpr}
    {st st' : Emission} {rs : List Reg} :
    lowerAll env before st = .ok (rs, st') →
    Descends env (.call m func (before ++ a :: after), st) (a, st')
  | tuple {m : Mark} {before after : List StampedExpr} {a : StampedExpr} {st st' : Emission}
    {rs : List Reg} :
    lowerAll env before st = .ok (rs, st') →
    Descends env (.tuple m (before ++ a :: after), st) (a, st')
  | select {m : Mark} {c t f a : StampedExpr} {before after : List StampedExpr}
    {st st₁ st' : Emission} {rs : List Reg} :
    align env m.stamp.axes (.select m c t f) st = .ok ((), st₁) →
    [c, t, f] = before ++ a :: after → lowerAll env before st₁ = .ok (rs, st') →
    Descends env (.select m c t f, st) (a, st')
  | reduce {m : Mark} {op : String} {reduced : Axes} {arg : StampedExpr} {start : Literal}
    {st st₁ st₂ : Emission} :
    arg.axes ≠ [] → arg.axes = m.stamp.axes ++ reduced →
    identity env op m.stamp.dtype m.span = .ok start →
    align env m.stamp.axes (.reduce m op reduced arg) st = .ok ((), st₁) →
    openReduction env m op reduced arg
      (st₁.declareAccumulator op start m.stamp.dtype m.span).2 = .ok ((), st₂) →
    Descends env (.reduce m op reduced arg, st) (arg, { st₂ with floor := st₂.frames.length })

/-- Lowering comes to an expression: the open loops cover its axes, and it does not fail. -/
structure Reaches (env : Env) (inputs : InputTable) (decls : List (String × Stamp))
    (uses : List InputUse) (p : StampedExpr × Emission) : Prop where
  consistent : p.1.Consistent inputs decls
  uses : StampedExpr.inputUses p.1 ⊆ uses
  covered : p.1.axes <+: p.2.logical
  lowered : ∃ q, lower env p.1 p.2 = .ok q

/-- Lowering a consistent expression leaves the open loops as they were. -/
theorem frames_of_lower (hm : env.carriers.Records uses) (hc : e.Consistent inputs decls)
    (hu : StampedExpr.inputUses e ⊆ uses) (ha : e.axes <+: st.logical) {r : Reg}
    (h : lower env e st = .ok (r, st')) : st'.frames = st.frames := by
  -- any bodies with the axes of the stamps do for the declarations
  let known (name : String) : Option StampedExpr :=
    (decls.lookup name).map fun stamp => .constant ⟨⟨0⟩, ⟨0⟩, 0, stamp, none, .zero⟩ (.integer 0)
  have hk : ∀ name stamp, decls.lookup name = some stamp →
      ∃ body, known name = some body ∧ body.axes = stamp.axes :=
    fun name stamp hs => ⟨_, congrArg (Option.map _) hs, rfl⟩
  obtain ⟨is, hext⟩ := (traces hm hc hk hu).extends ha h
  exact hext.frames

theorem logical_congr (h : st'.frames = st.frames) : st'.logical = st.logical := by
  rw [logical, h]
  rfl

namespace Reaches

theorem keeps (hm : env.carriers.Records uses) (h : Reaches env inputs decls uses (e, st)) :
    ∃ r st', lower env e st = .ok (r, st') ∧ st'.frames = st.frames := by
  obtain ⟨⟨r, st'⟩, hst⟩ := h.lowered
  exact ⟨r, st', hst, frames_of_lower hm h.consistent h.uses h.covered hst⟩

/-- Of operands that are lowered one after the other, lowering comes to each. -/
theorem of_lowerAll (hm : env.carriers.Records uses) {axes : Axes} (ha : axes <+: st.logical)
    {before after : List StampedExpr} {a : StampedExpr}
    (hes : ∀ e ∈ before ++ a :: after, e.Consistent inputs decls ∧ e.axes <+: axes)
    (hu : StampedExpr.inputUsesAll (before ++ a :: after) ⊆ uses) {q : List Reg × Emission}
    (h : lowerAll env (before ++ a :: after) st = .ok q) {rs : List Reg}
    (hb : lowerAll env before st = .ok (rs, st')) : Reaches env inputs decls uses (a, st') := by
  induction before generalizing st rs q with
  | nil =>
    rw [lowerAll] at hb
    cases StateT.pure_eq_ok.1 hb
    rw [List.nil_append, lowerAll] at h
    obtain ⟨r, st₁, hone, -⟩ := StateT.bind_eq_ok.1 h
    obtain ⟨hc, haxes⟩ := hes a List.mem_cons_self
    exact ⟨hc, List.Subset.trans (inputUses_subset_all List.mem_cons_self) hu, haxes.trans ha, _,
      hone⟩
  | cons b before ih =>
    rw [List.cons_append, lowerAll] at h
    rw [lowerAll] at hb
    obtain ⟨r, st₁, hone, h₁⟩ := StateT.bind_eq_ok.1 h
    obtain ⟨rs', st₂, hrest, -⟩ := StateT.bind_eq_ok.1 h₁
    obtain ⟨r', st₃, hone', h₂⟩ := StateT.bind_eq_ok.1 hb
    cases hone.symm.trans hone'
    obtain ⟨rs₂, st₄, hbefore, hp⟩ := StateT.bind_eq_ok.1 h₂
    cases StateT.pure_eq_ok.1 hp
    obtain ⟨⟨hc, haxes⟩, hes⟩ := List.forall_mem_cons.1 hes
    rw [List.cons_append, StampedExpr.inputUsesAll] at hu
    obtain ⟨hub, hu⟩ := List.append_subset.1 hu
    have hframes := frames_of_lower hm hc hub (haxes.trans ha) hone
    exact ih (logical_congr hframes ▸ ha) hes hu hrest hbefore

end Reaches

theorem exists_lowerAll_of_mem {es : List StampedExpr} {a : StampedExpr} (ha : a ∈ es)
    {q : List Reg × Emission} (h : lowerAll env es st = .ok q) :
    ∃ before after rs st', es = before ++ a :: after ∧ lowerAll env before st = .ok (rs, st') := by
  induction es generalizing st q with
  | nil => cases ha
  | cons e es ih =>
    rw [lowerAll] at h
    obtain ⟨r, st₁, hone, h₁⟩ := StateT.bind_eq_ok.1 h
    obtain ⟨rs, st₂, hrest, -⟩ := StateT.bind_eq_ok.1 h₁
    rcases List.mem_cons.1 ha with rfl | ha
    · exact ⟨[], es, [], st, rfl, by rw [lowerAll]; rfl⟩
    · obtain ⟨before, after, rs', st', rfl, hbefore⟩ := ih ha hrest
      refine ⟨e :: before, after, r :: rs', st', rfl, ?_⟩
      rw [lowerAll]
      exact StateT.bind_eq_ok.2 ⟨r, st₁, hone, StateT.bind_eq_ok.2 ⟨rs', st', hbefore, rfl⟩⟩

/-- The operands of a selection are lowered one after the other. -/
theorem lowerAll_of_select {m : Mark} {c t f : StampedExpr} (ha : m.stamp.axes <+: st.logical)
    {q : Reg × Emission} (h : lower env (.select m c t f) st = .ok q) :
    ∃ q', lowerAll env [c, t, f] st = .ok q' := by
  rw [lower] at h
  obtain ⟨_, _, halign, h₀⟩ := StateT.bind_eq_ok.1 h
  rw [align_covered _ ha] at halign
  cases halign
  obtain ⟨rc, st₁, hc, h₁⟩ := StateT.bind_eq_ok.1 h₀
  obtain ⟨rt, st₂, ht, h₂⟩ := StateT.bind_eq_ok.1 h₁
  obtain ⟨rf, st₃, hf, -⟩ := StateT.bind_eq_ok.1 h₂
  refine ⟨([rc, rt, rf], st₃), ?_⟩
  simp only [lowerAll]
  exact StateT.bind_eq_ok.2 ⟨rc, st₁, hc, StateT.bind_eq_ok.2 ⟨[rt, rf], st₃,
    StateT.bind_eq_ok.2 ⟨rt, st₂, ht, StateT.bind_eq_ok.2 ⟨[rf], st₃,
      StateT.bind_eq_ok.2 ⟨rf, st₃, hf, rfl⟩, rfl⟩⟩, rfl⟩⟩

/-- A step that holds the open loops begins with all of them under the floor. -/
theorem exists_of_holding {α : Type} {step : Lower α} {q : α × Emission}
    (h : holding step st = .ok q) :
    ∃ q', step { st with floor := st.frames.length } = .ok q' := by
  obtain ⟨_, _, hget, h₁⟩ := StateT.bind_eq_ok.1 h
  cases hget
  obtain ⟨_, _, hset, h₂⟩ := StateT.bind_eq_ok.1 h₁
  cases hset
  obtain ⟨_, _, hstep, -⟩ := StateT.bind_eq_ok.1 h₂
  exact ⟨_, hstep⟩

/-- A reduction comes to its argument. -/
theorem exists_of_reduction {m : Mark} {op : String} {reduced : Axes} {arg : StampedExpr}
    {argument : Lower Reg} {q : Reg × Emission}
    (h : reduction env m op reduced arg argument st = .ok q) :
    arg.axes ≠ [] ∧ arg.axes = m.stamp.axes ++ reduced ∧ ∃ start st₁ st₂,
      identity env op m.stamp.dtype m.span = .ok start ∧
      align env m.stamp.axes (.reduce m op reduced arg) st = .ok ((), st₁) ∧
      openReduction env m op reduced arg
        (st₁.declareAccumulator op start m.stamp.dtype m.span).2 = .ok ((), st₂) ∧
      ∃ q', argument { st₂ with floor := st₂.frames.length } = .ok q' := by
  unfold reduction at h
  split at h
  · cases h
  · rename_i hscalar
    split at h
    · cases h
    · rename_i haxes
      obtain ⟨start, _, hlift, h₁⟩ := StateT.bind_eq_ok.1 h
      obtain ⟨hident, rfl⟩ := liftM_eq_ok hlift
      obtain ⟨_, st₁, halign, h₂⟩ := StateT.bind_eq_ok.1 h₁
      obtain ⟨acc, _, hdecl, h₃⟩ := StateT.bind_eq_ok.1 h₂
      cases hdecl
      obtain ⟨_, _, hget, h₄⟩ := StateT.bind_eq_ok.1 h₃
      cases hget
      obtain ⟨_, st₂, hopen, h₅⟩ := StateT.bind_eq_ok.1 h₄
      obtain ⟨_, _, hhold, -⟩ := StateT.bind_eq_ok.1 h₅
      obtain ⟨_, hstep⟩ := exists_of_holding hhold
      obtain ⟨v, st₃, harg, -⟩ := StateT.bind_eq_ok.1 hstep
      exact ⟨hscalar, not_not.1 haxes, start, st₁, st₂, hident, halign, hopen, _, harg⟩

namespace Reaches

/-- From an expression lowering comes to its operands. -/
theorem descend (hm : env.carriers.Records uses) {p q : StampedExpr × Emission}
    (h : Reaches env inputs decls uses p) (hd : Descends env p q) :
    Reaches env inputs decls uses q := by
  obtain ⟨hc, hu, ha, last, hlast⟩ := h
  have hbound {es : List StampedExpr} {axes : Axes}
      (hlub : Axes.lub (es.map StampedExpr.axes) = .ok axes)
      (hes : ∀ e ∈ es, e.Consistent inputs decls) :
      ∀ e ∈ es, e.Consistent inputs decls ∧ e.axes <+: axes := fun e he =>
    ⟨hes e he, Axes.prefix_of_lub hlub (List.mem_map.2 ⟨e, he, rfl⟩)⟩
  cases hd with
  | call hb =>
    cases hc with
    | call hlub hargs =>
      rw [lower] at hlast
      obtain ⟨rs, st₁, hall, -⟩ := StateT.bind_eq_ok.1 hlast
      exact of_lowerAll hm ha (hbound hlub hargs) hu hall hb
  | tuple hb =>
    cases hc with
    | tuple hlub helems =>
      rw [lower] at hlast
      obtain ⟨rs, st₁, hall, -⟩ := StateT.bind_eq_ok.1 hlast
      exact of_lowerAll hm ha (hbound hlub helems) hu hall hb
  | @select m c t f a before after st st₁ st' rs halign hsplit hb =>
    have ha : m.stamp.axes <+: st.logical := ha
    cases hc with
    | select hlub hc ht hf =>
      -- the open loops cover the axes of the selection, so none is opened for it
      rw [align_covered _ ha] at halign
      cases halign
      obtain ⟨q', hall⟩ := lowerAll_of_select ha hlast
      have huses : StampedExpr.inputUsesAll [c, t, f] ⊆ uses := by
        simpa only [StampedExpr.inputUses, StampedExpr.inputUsesAll, List.append_nil] using hu
      have hes : ∀ e ∈ [c, t, f], e.Consistent inputs decls ∧ e.axes <+: m.stamp.axes :=
        hbound hlub (by simp [hc, ht, hf])
      rw [hsplit] at hall huses hes
      exact of_lowerAll hm ha hes huses hall hb
  | @reduce m op reduced arg start st st₁ st₂ hscalar haxes hident halign hopen =>
    have ha : m.stamp.axes <+: st.logical := ha
    have hlast : reduction env m op reduced arg (lower env arg) st = .ok last := by
      rwa [lower] at hlast
    have huse : StampedExpr.inputUses arg ⊆ uses := by
      simpa only [StampedExpr.inputUses] using hu
    cases hc with
    | reduce _ hred hc =>
      obtain ⟨-, -, _, _, _, hident', halign', hopen', q', harg⟩ := exists_of_reduction hlast
      cases hident.symm.trans hident'
      cases halign.symm.trans halign'
      cases hopen.symm.trans hopen'
      obtain ⟨os, hos⟩ := opened_of_openReduction hm huse m.span hopen
      have hne : reduced ≠ [] := fun hnil => hscalar (hred hnil)
      have hlogical : st₂.logical = arg.axes := by
        rw [haxes, ← logicalOf_places, hos.opens.logicalOf_eq hne]
      exact ⟨hc, huse, hlogical ▸ List.prefix_refl st₂.logical, q', harg⟩

theorem descends (hm : env.carriers.Records uses) {p q : StampedExpr × Emission}
    (h : Reaches env inputs decls uses p) (hd : Relation.ReflTransGen (Descends env) p q) :
    Reaches env inputs decls uses q := by
  induction hd with
  | refl => exact h
  | tail _ hd ih => exact ih.descend hm hd

/-- What lowering comes to from an operand it comes to from the expression. -/
theorem exists_of_operand (hm : env.carriers.Records uses)
    (h : Reaches env inputs decls uses (e, st)) {es : List StampedExpr} {q : List Reg × Emission}
    (hall : lowerAll env es st = .ok q)
    (hd : ∀ {before a after rs st'}, es = before ++ a :: after →
      lowerAll env before st = .ok (rs, st') → Descends env (e, st) (a, st'))
    {a x : StampedExpr} (ha : a ∈ es)
    (hx : ∀ {st}, Reaches env inputs decls uses (a, st) →
      ∃ st', Relation.ReflTransGen (Descends env) (a, st) (x, st')) :
    ∃ st', Relation.ReflTransGen (Descends env) (e, st) (x, st') := by
  obtain ⟨before, after, rs, st₁, hsplit, hb⟩ := exists_lowerAll_of_mem ha hall
  obtain ⟨st', hst⟩ := hx (h.descend hm (hd hsplit hb))
  exact ⟨st', .head (hd hsplit hb) hst⟩

/-- Lowering comes to each part of an expression. -/
theorem exists_of_mem (hm : env.carriers.Records uses)
    (h : Reaches env inputs decls uses (e, st)) {x : StampedExpr} (hx : x ∈ e.postorder) :
    ∃ st', Relation.ReflTransGen (Descends env) (e, st) (x, st') := by
  induction e using Expr.induction generalizing st with
  | constant m v | input m path | ref m name =>
    rw [List.mem_singleton.1 hx]
    exact ⟨st, .refl⟩
  | call m func args ih =>
    rcases Expr.mem_postorder_call.1 hx with ⟨a, ha, hx⟩ | rfl
    · obtain ⟨q, hq⟩ := h.lowered
      rw [lower] at hq
      obtain ⟨rs, st₁, hall, -⟩ := StateT.bind_eq_ok.1 hq
      refine h.exists_of_operand hm hall ?_ ha fun hst => ih a ha hst hx
      rintro before a after rs st' rfl hb
      exact .call hb
    · exact ⟨st, .refl⟩
  | tuple m elems ih =>
    rcases Expr.mem_postorder_tuple.1 hx with ⟨a, ha, hx⟩ | rfl
    · obtain ⟨q, hq⟩ := h.lowered
      rw [lower] at hq
      obtain ⟨rs, st₁, hall, -⟩ := StateT.bind_eq_ok.1 hq
      refine h.exists_of_operand hm hall ?_ ha fun hst => ih a ha hst hx
      rintro before a after rs st' rfl hb
      exact .tuple hb
    · exact ⟨st, .refl⟩
  | select m c t f ihc iht ihf =>
    obtain ⟨q, hq⟩ := h.lowered
    obtain ⟨q', hall⟩ := lowerAll_of_select h.covered hq
    have hoperand {a : StampedExpr} := h.exists_of_operand hm (a := a) (x := x) hall
      fun hsplit hb => .select (align_covered _ h.covered) hsplit hb
    rcases Expr.mem_postorder_select.1 hx with hx | hx | hx | rfl
    · exact hoperand (by simp) fun hst => ihc hst hx
    · exact hoperand (by simp) fun hst => iht hst hx
    · exact hoperand (by simp) fun hst => ihf hst hx
    · exact ⟨st, .refl⟩
  | reduce m op reduced arg ih =>
    rcases Expr.mem_postorder_reduce.1 hx with hx | rfl
    · obtain ⟨q, hq⟩ := h.lowered
      rw [lower] at hq
      obtain ⟨hscalar, haxes, start, st₁, st₂, hident, halign, hopen, -⟩ := exists_of_reduction hq
      have hd : Descends env (.reduce m op reduced arg, st)
          (arg, { st₂ with floor := st₂.frames.length }) :=
        .reduce hscalar haxes hident halign hopen
      obtain ⟨st', hst⟩ := ih (h.descend hm hd) hx
      exact ⟨st', .head hd hst⟩
    · exact ⟨st, .refl⟩

end Reaches

/-- Lowering comes to each part of a body, and leaves the loops that are open there as they are. -/
def KeepsLoops (env : Env) (body : StampedExpr) : Prop :=
  ∃ st, align env body.axes body .empty = .ok ((), st) ∧
    (∀ e ∈ body.postorder, ∃ st', Relation.ReflTransGen (Descends env) (body, st) (e, st')) ∧
    ∀ e st', Relation.ReflTransGen (Descends env) (body, st) (e, st') →
      ∃ r last, lower env e st' = .ok (r, last) ∧ last.frames = st'.frames

theorem keepsLoops_of_ofDecl (hm : env.carriers.Records uses) {d : StampedDecl}
    (hc : d.body.Consistent inputs decls) (hu : StampedExpr.inputUses d.body ⊆ uses) {c : LoopCode}
    (h : LoopCode.ofDecl d env.carriers env.registry = .ok c) : KeepsLoops env d.body := by
  rw [LoopCode.ofDecl] at h
  split at h
  · cases h
  · rename_i last hlast
    obtain ⟨_, st, halign, hrest⟩ := StateT.bind_eq_ok.1 hlast
    obtain ⟨v, st', hlower, -⟩ := StateT.bind_eq_ok.1 hrest
    obtain ⟨os, hos⟩ := opened_of_align hm hu d.body.span halign
    have hbody : Reaches env inputs decls uses (d.body, st) := ⟨hc, hu, hos.covers, _, hlower⟩
    exact ⟨st, halign, fun e he => hbody.exists_of_mem hm he,
      fun e st' hst => (hbody.descends hm hst).keeps hm⟩

end Lowering

/-- The loops at the yield are the first ones that the code opens. -/
def LoopCode.YieldsInFirstLoops (c : LoopCode) : Prop :=
  c.contextAtYield <+: c.instrs.filterMap Instr.loop?

namespace StampedModule

theorem Codes.contexts {env : Lowering.Env} {inlined : Bool} {done ds : List StampedDecl}
    {cs : List LoopCode} (h : Codes env inlined done ds cs) :
    cs.map (fun c => c.contextAtYield.map OpenLoop.axis) = ds.map (fun d => d.body.axes) ∧
      ∀ c ∈ cs, c.YieldsInFirstLoops := by
  induction h with
  | nil => exact ⟨rfl, List.forall_mem_nil _⟩
  | cons _ hn _ hinstrs _ _ ih =>
    have hcontext := hn.contextAtYield_eq hinstrs
    refine ⟨?_, List.forall_mem_cons.2 ⟨?_, ih.2⟩⟩
    · rw [List.map_cons, List.map_cons, ih.1, hcontext, hn.context_axes]
    · rw [LoopCode.YieldsInFirstLoops, hcontext, hinstrs]
      exact hn.context_opened_first

/-- Where the code has the headers of the declarations, it yields under the axes of the headers. -/
theorem Codes.contexts_of_headers {sm : StampedModule} {inputs : InputTable} {cs : List LoopCode}
    {env : Lowering.Env} {inlined : Bool} (h : Codes env inlined [] sm.decls cs)
    (hc : sm.Consistent inputs)
    (hheaders : cs.map LoopCode.header = sm.decls.map StampedDecl.header) :
    ∀ c ∈ cs, c.contextAtYield.map OpenLoop.axis = c.axes ∧ c.YieldsInFirstLoops := by
  obtain ⟨haxes, hfirst⟩ := h.contexts
  have hdeclared : cs.map LoopCode.axes = sm.decls.map fun d => d.body.axes := by
    have hfields := congrArg (List.map fun x => x.2.1) hheaders
    rw [List.map_map, List.map_map] at hfields
    refine hfields.trans (List.map_congr_left fun d hd => ?_)
    obtain ⟨-, -, hstamp⟩ := hc.bodies.exists_of_mem hd
    exact congrArg Stamp.axes hstamp
  intro c hmem
  exact ⟨List.map_inj_left.1 (haxes.trans hdeclared.symm) c hmem, hfirst c hmem⟩

end StampedModule

namespace LoopModule

/-- The loop context at the yield is the declared one, before and after inlining, and lowering
leaves the open loops as they were at each expression that it comes to. -/
theorem ofStamped_yields_in_declared_loops {ds : List (Declaration Span)} {g : Graph}
    {inputs : InputTable} {registry : Registry} {a : Analysis} {sm : StampedModule}
    {carriers : CarrierMap} {m : LoopModule}
    (hg : Graph.ofDeclarations ds = .ok g) (ha : Analysis.ofGraph g inputs registry = .ok a)
    (hsm : StampedModule.ofGraph g a registry = .ok sm) (hm : CarrierMap.ofModule sm = .ok carriers)
    (hl : ofStamped sm carriers registry = .ok m) :
    (∀ c ∈ m.decls ++ m.inline.decls,
      c.contextAtYield.map OpenLoop.axis = c.axes ∧ c.YieldsInFirstLoops) ∧
    ∀ d ∈ sm.decls, Lowering.KeepsLoops ⟨carriers, registry⟩ d.body := by
  have hc := StampedModule.consistent_ofGraph hg ha hsm
  have hcodes := StampedModule.codes_ofStamped hc hm hl
  have hinlined := StampedModule.codes_inline hcodes hc.names
  have hheaders := headers_ofStamped hl
  refine ⟨List.forall_mem_append.2 ⟨hcodes.contexts_of_headers hc hheaders,
    hinlined.contexts_of_headers hc ?_⟩, fun d hd => ?_⟩
  · rw [← hheaders]
    exact headers_inlineFrom [] _
  · obtain ⟨known, hbody, -⟩ := hc.bodies.exists_of_mem hd
    obtain ⟨cs, hcs, -⟩ := Except.bind_eq_ok.1 hl
    obtain ⟨c, -, hcode⟩ := exists_of_forall₂ (mapM_eq_ok.1 hcs) hd
    let env : Lowering.Env := ⟨carriers, registry⟩
    have hrecords : env.carriers.Records sm.inputUses := CarrierMap.records_ofModule hm
    exact Lowering.keepsLoops_of_ofDecl hrecords hbody
      (fun u hu => List.mem_flatMap.2 ⟨d, hd, hu⟩) hcode

theorem rowSums_yields_in_declared_loops :
    ∃ a sm carriers m, Graph.ofDeclarations rowSums = .ok rowSumsProgram.graph ∧
      Analysis.ofGraph rowSumsProgram.graph rowSumsProgram.inputs .builtins = .ok a ∧
      StampedModule.ofGraph rowSumsProgram.graph a .builtins = .ok sm ∧
      CarrierMap.ofModule sm = .ok carriers ∧ ofStamped sm carriers .builtins = .ok m ∧
      (∀ c ∈ m.decls ++ m.inline.decls,
        c.contextAtYield.map OpenLoop.axis = c.axes ∧ c.YieldsInFirstLoops) ∧
      ∀ d ∈ sm.decls, Lowering.KeepsLoops ⟨carriers, .builtins⟩ d.body := by
  have hok : Session.failed? (rowSumsProgram.lowering .builtins true).1 = none := by decide +kernel
  obtain ⟨a, sm, carriers, m, ha, hsm, hm, hl, -⟩ := Session.run_lower hok
  have hg : Graph.ofDeclarations rowSums = .ok rowSumsProgram.graph := rfl
  exact ⟨a, sm, carriers, m, hg, ha, hsm, hm, hl,
    ofStamped_yields_in_declared_loops hg ha hsm hm hl⟩

end LoopModule
end LoopNest
