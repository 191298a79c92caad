import LoopNest.Proofs.Lowering.Module
import LoopNest.Proofs.Pipeline

/-! When lowering succeeds. It needs a carrier for all axes that loops are opened over, and for each
reduction something to reduce and a value to start from. What is found in a stamped module decides
this, and nothing else can fail. -/
namespace LoopNest

/-- There is a carrier for each of the loops over some axes. -/
def CarrierMap.Covers (m : CarrierMap) (axes : Axes) : Prop :=
  ∀ p, p <+: axes → p ≠ [] → m.contains p = true

theorem CarrierMap.Records.covers {m : CarrierMap} {uses : List InputUse} (h : m.Records uses)
    {axes : Axes} {path : FieldPath} (hf : m.find? axes = some path) : m.Covers axes := by
  intro p hp hne
  have hprefix := h.find?_take hf (List.length_pos_of_ne_nil hne)
  rw [← List.prefix_iff_eq_take.1 hp] at hprefix
  rw [OrderedMap.contains, hprefix]
  rfl

/-- A reduction has something to reduce, a value to start from, and carriers for its loops. -/
structure Lowering.Reducible (env : Lowering.Env) (m : Mark) (op : String) (arg : StampedExpr) :
    Prop where
  argument : arg.axes ≠ []
  start : ∃ f i v, env.registry.find? op = some f ∧ f.identity = some i ∧
    i.literal? m.stamp.dtype = some v
  carried : env.carriers.Covers arg.axes

namespace StampedExpr

/-- All reductions below an expression can be lowered. -/
def Lowerable (env : Lowering.Env) (e : StampedExpr) : Prop :=
  ∀ m op reduced arg, .reduce m op reduced arg ∈ e.postorder → Lowering.Reducible env m op arg

variable {env : Lowering.Env}

theorem Lowerable.of_subset {e e' : StampedExpr} (h : e.Lowerable env)
    (hsub : e'.postorder ⊆ e.postorder) : e'.Lowerable env :=
  fun m op reduced arg hmem => h m op reduced arg (hsub hmem)

/-- The axes of an expression come from an input or from a declaration before. -/
theorem Consistent.anchored {inputs : InputTable} {decls : List (String × Stamp)} {e : StampedExpr}
    (h : e.Consistent inputs decls) :
    (∃ u ∈ inputUses e, e.axes <+: u.axes) ∨
      (∃ name stamp, decls.lookup name = some stamp ∧ e.axes <+: stamp.axes) ∨ e.axes = [] := by
  -- the axes of a node that broadcasts are those of one of its arguments
  have hargs {args : List StampedExpr} {axes : Axes}
      (ih : ∀ a ∈ args, (∃ u ∈ inputUses a, a.axes <+: u.axes) ∨
        (∃ name stamp, decls.lookup name = some stamp ∧ a.axes <+: stamp.axes) ∨ a.axes = [])
      (hlub : Axes.lub (args.map StampedExpr.axes) = .ok axes) :
      (∃ u ∈ args.flatMap inputUses, axes <+: u.axes) ∨
        (∃ name stamp, decls.lookup name = some stamp ∧ axes <+: stamp.axes) ∨ axes = [] := by
    rcases (Axes.lub_eq_ok_iff.1 hlub).2 with hmem | ⟨-, hnil⟩
    · obtain ⟨a, ha, rfl⟩ := List.mem_map.1 hmem
      rcases ih a ha with ⟨u, hu, hp⟩ | h | h
      · exact .inl ⟨u, List.mem_flatMap_of_mem ha hu, hp⟩
      · exact .inr (.inl h)
      · exact .inr (.inr h)
    · exact .inr (.inr hnil)
  induction h with
  | constant h => exact .inr (.inr h)
  | input _ _ =>
    rw [inputUses]
    exact .inl ⟨_, List.mem_singleton.2 rfl, List.prefix_refl _⟩
  | ref hd hs => exact .inr (.inl ⟨_, _, hd, hs ▸ List.prefix_refl _⟩)
  | call hlub _ ih =>
    rw [inputUses, inputUsesAll_eq]
    exact hargs ih hlub
  | tuple hlub _ ih =>
    rw [inputUses, inputUsesAll_eq]
    exact hargs ih hlub
  | @select m c t f hlub _ _ _ ihc iht ihf =>
    have h := @hargs [c, t, f] _ (by simp [ihc, iht, ihf]) hlub
    rwa [inputUses, ← List.append_nil (inputUses f)]
  | @reduce m op reduced arg happ _ _ ih =>
    have hp : m.stamp.axes <+: arg.axes := happ ▸ List.prefix_append _ _
    rw [inputUses]
    rcases ih with ⟨u, hu, hu'⟩ | ⟨name, stamp, hd, hs⟩ | hnil
    · exact .inl ⟨u, hu, hp.trans hu'⟩
    · exact .inr (.inl ⟨name, stamp, hd, hp.trans hs⟩)
    · exact .inr (.inr (List.prefix_nil.1 (hnil ▸ hp)))

end StampedExpr

theorem Opens.exists_find? {carriers : CarrierMap} {places inner : List (Place Reg)}
    {axes rest : Axes} {os : List Opening} (h : Opens carriers places axes rest os inner)
    (hne : rest ≠ []) : ∃ path, carriers.find? (axes ++ rest) = some path := by
  induction h with
  | nil => exact absurd rfl hne
  | @cons places inner axes rest a carrier o os hc _ _ _ ih =>
    cases rest with
    | nil => exact ⟨carrier, hc⟩
    | cons b rest =>
      rw [List.append_cons]
      exact ih (List.cons_ne_nil _ _)

namespace Lowering

open Emission

variable {env : Env} {uses : List InputUse} {st st' : Emission}

/-- What was lowered can be lowered. -/
theorem lowerable_of_emits (hm : env.carriers.Records uses) {inlined : Bool}
    {known : String → Option StampedExpr} {places : List (Place Reg)} {es : List StampedExpr}
    {b : Block} {rs : List Reg} {refs : List Reference}
    (h : Emits env inlined known places es b rs refs) : ∀ e ∈ es, e.Lowerable env := by
  have hleaf {e : StampedExpr} (he : e.postorder = [e])
      (hnot : ∀ m op reduced arg, e ≠ .reduce m op reduced arg) : e.Lowerable env := by
    intro m op reduced arg hmem
    rw [he, List.mem_singleton] at hmem
    exact absurd hmem.symm (hnot m op reduced arg)
  induction h with
  | nil => exact List.forall_mem_nil _
  | constant _ ih => exact List.forall_mem_cons.2 ⟨hleaf rfl (by simp), ih⟩
  | input _ _ ih => exact List.forall_mem_cons.2 ⟨hleaf rfl (by simp), ih⟩
  | load _ _ _ _ ih => exact List.forall_mem_cons.2 ⟨hleaf rfl (by simp), ih⟩
  | compute _ _ _ _ _ _ _ _ ih => exact List.forall_mem_cons.2 ⟨hleaf rfl (by simp), ih⟩
  | call _ _ ihargs ih =>
    refine List.forall_mem_cons.2 ⟨fun m op reduced arg hmem => ?_, ih⟩
    rcases Expr.mem_postorder_call.1 hmem with ⟨a, ha, hmem⟩ | heq
    · exact ihargs a ha m op reduced arg hmem
    · cases heq
  | tuple _ _ ihelems ih =>
    refine List.forall_mem_cons.2 ⟨fun m op reduced arg hmem => ?_, ih⟩
    rcases Expr.mem_postorder_tuple.1 hmem with ⟨a, ha, hmem⟩ | heq
    · exact ihelems a ha m op reduced arg hmem
    · cases heq
  | select _ _ ihargs ih =>
    refine List.forall_mem_cons.2 ⟨fun m op reduced arg hmem => ?_, ih⟩
    simp only [List.forall_mem_cons] at ihargs
    rcases Expr.mem_postorder_select.1 hmem with hmem | hmem | hmem | heq
    · exact ihargs.1 m op reduced arg hmem
    · exact ihargs.2.1 m op reduced arg hmem
    · exact ihargs.2.2.1 m op reduced arg hmem
    · cases heq
  | reduce _ haxes hred hident ho _ _ iharg ih =>
    refine List.forall_mem_cons.2 ⟨fun m op reduced arg hmem => ?_, ih⟩
    rcases Expr.mem_postorder_reduce.1 hmem with hmem | heq
    · exact iharg _ (List.mem_singleton.2 rfl) m op reduced arg hmem
    · cases heq
      obtain ⟨f, i, hf, hi, hv⟩ := identity_eq_ok hident
      obtain ⟨path, hfind⟩ := ho.exists_find? hred
      rw [← haxes] at hfind
      refine ⟨fun hnil => hred ?_, ⟨f, i, _, hf, hi, hv⟩, hm.covers hfind⟩
      exact (List.append_eq_nil_iff.1 (haxes ▸ hnil)).2

/-- The codes that lowering fails with. -/
def failureCodes : List (Option Code) :=
  [some .scalarReduction, some .typeRule, some .missingAnchor]

theorem liftM_eq_error {α : Type} {x : Except Diagnostic α} {d : Diagnostic}
    (h : (liftM x : Lower α) st = .error d) : x = .error d := by
  cases x with
  | error e =>
    cases h
    rfl
  | ok a => cases h

/-- A path that is not empty can be followed. -/
theorem follow_ne_error {test : Frame → Bool} {path : FieldPath} (hne : path ≠ [])
    {dtype : Option DType} {span : Span} {d : Diagnostic} :
    follow test path dtype span st ≠ .error d := by
  intro h
  rcases StateT.bind_eq_error.1 h with h | ⟨_, _, _, h⟩
  · rcases StateT.bind_eq_error.1 h with h | ⟨e, _, _, h⟩
    · cases h
    · cases hf : e.frames.find? test with
      | some f =>
        simp only [hf] at h
        cases h
      | none =>
        cases path with
        | nil => exact hne rfl
        | cons root keys =>
          simp only [hf] at h
          cases h
  · cases h

/-- A loop cannot be opened only where its axes have no carrier. Then there is an input that would
carry them if its path were longer, or none at all. -/
theorem openLoop_eq_error (hm : env.carriers.Records uses) {anchor : StampedExpr}
    (hu : StampedExpr.inputUses anchor ⊆ uses) {logical : Axes} (hne : logical ≠ [])
    {d : Diagnostic} (h : openLoop env anchor logical st = .error d) :
    env.carriers.contains logical = false ∧
      (d.code = some .missingAnchor ∨ Carrier.anchors logical anchor = []) := by
  unfold openLoop at h
  cases hlast : logical.getLast? with
  | none => exact absurd (List.getLast?_eq_none_iff.1 hlast) hne
  | some axis =>
    simp only [hlast] at h
    rcases StateT.bind_eq_error.1 h with h | ⟨carrier, st₁, hlift, h⟩
    · obtain ⟨hnone, hcode⟩ := Carrier.choose_eq_error (liftM_eq_error h)
      refine ⟨by rw [OrderedMap.contains, hnone]; rfl, ?_⟩
      by_cases hnil : Carrier.anchors logical anchor = []
      · exact .inr hnil
      · rw [if_neg hnil] at hcode
        exact .inl hcode
    · obtain ⟨hchoose, rfl⟩ := liftM_eq_ok hlift
      have hlen := hm.length_eq (Carrier.find?_of_choose hm hu hne hchoose)
      have hcarrier : carrier ≠ [] := by
        rw [← List.length_pos_iff, hlen, List.length_pos_iff]
        exact hne
      rcases StateT.bind_eq_error.1 h with h | ⟨_, _, _, h⟩
      · exact absurd h (follow_ne_error hcarrier)
      · cases h

section Failures

variable {inputs : InputTable} {decls : List (String × Stamp)}

/-- Where a loop towards an expression cannot be opened, an input is to blame. -/
theorem missingAnchor_of_openLoop (hm : env.carriers.Records uses) {anchor : StampedExpr}
    (hc : anchor.Consistent inputs decls)
    (hd : ∀ name stamp, decls.lookup name = some stamp → env.carriers.Covers stamp.axes)
    (hu : StampedExpr.inputUses anchor ⊆ uses) {logical : Axes} (hne : logical ≠ [])
    (hp : logical <+: anchor.axes) {d : Diagnostic}
    (h : openLoop env anchor logical st = .error d) :
    d.code = some .missingAnchor ∧ ¬env.carriers.Covers anchor.axes := by
  obtain ⟨hnone, hcode⟩ := openLoop_eq_error hm hu hne h
  have hnot {axes : Axes} (hp : logical <+: axes) (hcover : env.carriers.Covers axes) : False := by
    rw [hcover logical hp hne] at hnone
    cases hnone
  refine ⟨hcode.resolve_right fun hnil => ?_, hnot hp⟩
  rcases hc.anchored with ⟨u, huse, haxes⟩ | ⟨name, stamp, hl, haxes⟩ | haxes
  · have hmem : u ∈ Carrier.anchors logical anchor :=
      List.mem_filter.2 ⟨huse, List.isPrefixOf_iff_prefix.2 (hp.trans haxes)⟩
    rw [hnil] at hmem
    cases hmem
  · exact hnot (hp.trans haxes) (hd name stamp hl)
  · exact hne (List.prefix_nil.1 (haxes ▸ hp))

/-- The failure has one of the codes, and some reduction of the expression is to blame. -/
def Blames (env : Env) (e : StampedExpr) (d : Diagnostic) : Prop :=
  d.code ∈ failureCodes ∧ ¬e.Lowerable env

theorem Blames.mono {e e' : StampedExpr} {d : Diagnostic} (h : Blames env e' d)
    (hsub : e'.postorder ⊆ e.postorder) : Blames env e d :=
  ⟨h.1, fun hl => h.2 (hl.of_subset hsub)⟩

theorem identity_eq_error {op : String} {dtype : DType} {span : Span} {f : Signature}
    (hf : env.registry.find? op = some f) {d : Diagnostic}
    (h : identity env op dtype span = .error d) :
    d.code = some .typeRule ∧ (f.identity.bind fun i => i.literal? dtype) = none := by
  rw [identity, hf] at h
  simp only at h
  split at h
  · cases h
  · rename_i hnone
    cases h
    exact ⟨rfl, hnone⟩

theorem annotate_eq_error {α : Type} {f : Diagnostic → Diagnostic} {step : Lower α}
    {d : Diagnostic} (h : annotate f step st = .error d) :
    ∃ d', step st = .error d' ∧ d = f d' := by
  unfold annotate at h
  cases hs : step st with
  | error d' =>
    rw [hs] at h
    cases h
    exact ⟨d', rfl, rfl⟩
  | ok r =>
    rw [hs] at h
    cases h

theorem holding_eq_error {α : Type} {step : Lower α} {d : Diagnostic}
    (h : holding step st = .error d) : step { st with floor := st.frames.length } = .error d := by
  rcases StateT.bind_eq_error.1 h with h | ⟨_, _, hget, h⟩
  · cases h
  · cases hget
    rcases StateT.bind_eq_error.1 h with h | ⟨_, _, hset, h⟩
    · cases h
    · cases hset
      rcases StateT.bind_eq_error.1 h with h | ⟨_, _, -, h⟩
      · exact h
      · cases h

/-- Where an expression cannot be lowered, one of its reductions is to blame. -/
def FailsOnly (env : Env) (e : StampedExpr) : Prop :=
  ∀ st d, e.axes <+: st.logical → lower env e st = .error d → Blames env e d

theorem blames_of_lowerAll {known : String → Option StampedExpr} {es : List StampedExpr}
    (ht : ∀ e ∈ es, Traces env known e) (hf : ∀ e ∈ es, FailsOnly env e)
    (ha : ∀ e ∈ es, e.axes <+: st.logical) {d : Diagnostic}
    (h : lowerAll env es st = .error d) : ∃ e ∈ es, Blames env e d := by
  induction es generalizing st with
  | nil => cases h
  | cons e es ih =>
    obtain ⟨hte, htes⟩ := List.forall_mem_cons.1 ht
    obtain ⟨hfe, hfes⟩ := List.forall_mem_cons.1 hf
    obtain ⟨hae, haes⟩ := List.forall_mem_cons.1 ha
    rw [lowerAll] at h
    rcases StateT.bind_eq_error.1 h with h | ⟨r, st₁, hone, h⟩
    · exact ⟨e, List.mem_cons_self, hfe st d hae h⟩
    · rcases StateT.bind_eq_error.1 h with h | ⟨_, _, -, h⟩
      · obtain ⟨is, hext⟩ := hte.extends hae hone
        have hlogical := hext.logical_eq
        obtain ⟨e', he', hblame⟩ := ih htes hfes (fun x hx => hlogical ▸ haes x hx) h
        exact ⟨e', List.mem_cons_of_mem _ he', hblame⟩
      · cases h

/-- Where one of the arguments of a node cannot be lowered, one of its reductions is to blame. -/
theorem blames_of_arguments (hm : env.carriers.Records uses) {known : String → Option StampedExpr}
    (hk : ∀ name stamp, decls.lookup name = some stamp →
      ∃ body, known name = some body ∧ body.axes = stamp.axes)
    {args : List StampedExpr} {axes : Axes}
    (hlub : Axes.lub (args.map StampedExpr.axes) = .ok axes)
    (hargs : ∀ a ∈ args, a.Consistent inputs decls) (hf : ∀ a ∈ args, FailsOnly env a)
    (hu : StampedExpr.inputUsesAll args ⊆ uses) (ha : axes <+: st.logical) {d : Diagnostic}
    (h : lowerAll env args st = .error d) : ∃ a ∈ args, Blames env a d := by
  have htraces : ∀ a ∈ args, Traces env known a := fun a hmem =>
    traces hm (hargs a hmem) hk (List.Subset.trans (inputUses_subset_all hmem) hu)
  refine blames_of_lowerAll htraces hf (fun a hmem => ?_) h
  exact (Axes.prefix_of_lub hlub (List.mem_map.2 ⟨a, hmem, rfl⟩)).trans ha

theorem blames_of_reduction (hm : env.carriers.Records uses)
    {m : Mark} {op : String} {reduced : Axes} {arg : StampedExpr} {f : Signature}
    (hf : env.registry.find? op = some f) (happ : arg.axes = m.stamp.axes ++ reduced)
    (hred : reduced = [] → arg.axes = []) (hc : arg.Consistent inputs decls)
    (hd : ∀ name stamp, decls.lookup name = some stamp → env.carriers.Covers stamp.axes)
    (hu : StampedExpr.inputUses arg ⊆ uses) (harg : FailsOnly env arg)
    (ha : m.stamp.axes <+: st.logical) {d : Diagnostic}
    (h : reduction env m op reduced arg (lower env arg) st = .error d) :
    Blames env (.reduce m op reduced arg) d := by
  have hself : .reduce m op reduced arg ∈ (Expr.reduce m op reduced arg : StampedExpr).postorder :=
    Expr.mem_postorder_reduce.2 (.inr rfl)
  unfold reduction at h
  split at h
  · rename_i hscalar
    cases h
    exact ⟨List.mem_cons_self, fun hl => (hl _ _ _ _ hself).argument hscalar⟩
  · rename_i hscalar
    rw [if_neg (not_not.2 happ)] at h
    rcases StateT.bind_eq_error.1 h with h | ⟨start, _, hlift, h⟩
    · obtain ⟨hcode, hnone⟩ := identity_eq_error hf (liftM_eq_error h)
      refine ⟨by rw [hcode]; decide, fun hl => ?_⟩
      obtain ⟨f', i, v, hf', hi, hv⟩ := (hl _ _ _ _ hself).start
      cases hf.symm.trans hf'
      rw [hi, Option.bind_some, hv] at hnone
      cases hnone
    obtain ⟨-, rfl⟩ := liftM_eq_ok hlift
    rcases StateT.bind_eq_error.1 h with h | ⟨_, _, halign, h⟩
    · rw [align_covered _ ha] at h
      cases h
    rw [align_covered _ ha] at halign
    cases halign
    rcases StateT.bind_eq_error.1 h with h | ⟨acc, st₁, hdecl, h⟩
    · cases h
    rcases StateT.bind_eq_error.1 h with h | ⟨_, _, hget, h⟩
    · cases h
    cases hget
    rcases StateT.bind_eq_error.1 h with h | ⟨_, st₂, hopen, h⟩
    · -- a loop of the reduction cannot be opened
      obtain ⟨k, hk, st', h⟩ := StateT.forM_eq_error h
      obtain ⟨d', hloop, rfl⟩ := annotate_eq_error h
      have hk := List.mem_range'_1.1 hk
      have hne : m.stamp.axes ++ reduced.take k ≠ [] := by
        intro hnil
        have := congrArg List.length (List.append_eq_nil_iff.1 hnil).2
        rw [List.length_take, List.length_nil] at this
        omega
      have hp : m.stamp.axes ++ reduced.take k <+: arg.axes := by
        rw [happ]
        exact (List.prefix_append_right_inj _).2 (List.take_prefix _ _)
      obtain ⟨hcode, hnot⟩ := missingAnchor_of_openLoop hm hc hd hu hne hp hloop
      exact ⟨by rw [Diagnostic.withCause, hcode]; decide,
        fun hl => hnot (hl _ _ _ _ hself).carried⟩
    rcases StateT.bind_eq_error.1 h with h | ⟨_, _, -, h⟩
    · -- the argument fails
      obtain ⟨os, hos⟩ := opened_of_openReduction hm hu m.span hopen
      have hlogical : st₂.logical = arg.axes := by
        rw [happ, ← logicalOf_places, hos.opens.logicalOf_eq fun hnil => hscalar (hred hnil)]
      have hcover : arg.axes <+: { st₂ with floor := st₂.frames.length }.logical :=
        hlogical ▸ List.prefix_refl st₂.logical
      rcases StateT.bind_eq_error.1 (holding_eq_error h) with h | ⟨_, _, -, h⟩
      · exact (harg _ d hcover h).mono fun x hx => Expr.mem_postorder_reduce.2 (.inl hx)
      · cases h
    · cases h

/-- Lowering an expression fails only for the sake of one of its reductions. -/
theorem failsOnly (hm : env.carriers.Records uses) {known : String → Option StampedExpr}
    {e : StampedExpr} (hc : e.Consistent inputs decls) (ht : e.Typed inputs env.registry decls)
    (hk : ∀ name stamp, decls.lookup name = some stamp →
      ∃ body, known name = some body ∧ body.axes = stamp.axes)
    (hd : ∀ name stamp, decls.lookup name = some stamp → env.carriers.Covers stamp.axes)
    (hu : StampedExpr.inputUses e ⊆ uses)
    (hpath : ∀ u ∈ StampedExpr.inputUses e, u.path ≠ []) : FailsOnly env e := by
  have hall {args : List StampedExpr}
      (ih : ∀ a ∈ args, a.Typed inputs env.registry decls → StampedExpr.inputUses a ⊆ uses →
        (∀ u ∈ StampedExpr.inputUses a, u.path ≠ []) → FailsOnly env a)
      (ht : ∀ a ∈ args, a.Typed inputs env.registry decls)
      (hu : StampedExpr.inputUsesAll args ⊆ uses)
      (hpath : ∀ u ∈ StampedExpr.inputUsesAll args, u.path ≠ []) :
      ∀ a ∈ args, FailsOnly env a := fun a ha =>
    ih a ha (ht a ha) (List.Subset.trans (inputUses_subset_all ha) hu)
      fun u hu => hpath u (inputUses_subset_all ha hu)
  induction hc with
  | constant _ =>
    intro st d _ h
    cases h
  | input _ _ =>
    intro st d _ h
    refine absurd h (follow_ne_error ?_)
    rw [StampedExpr.inputUses] at hpath
    exact hpath _ (List.mem_singleton.2 rfl)
  | ref _ _ =>
    intro st d _ h
    cases h
  | @call m func args hlub hargs ih =>
    intro st d ha h
    rw [StampedExpr.inputUses] at hu hpath
    cases ht with
    | call _ _ htyped =>
      have hfails := hall ih htyped hu hpath
      rw [lower] at h
      rcases StateT.bind_eq_error.1 h with h | ⟨_, _, -, h⟩
      · obtain ⟨a, hmem, hblame⟩ := blames_of_arguments hm hk hlub hargs hfails hu ha h
        exact hblame.mono fun x hx => Expr.mem_postorder_call.2 (.inl ⟨a, hmem, hx⟩)
      · cases h
  | @tuple m elems hlub hargs ih =>
    intro st d ha h
    rw [StampedExpr.inputUses] at hu hpath
    cases ht with
    | tuple _ htyped =>
      have hfails := hall ih htyped hu hpath
      rw [lower] at h
      rcases StateT.bind_eq_error.1 h with h | ⟨_, _, -, h⟩
      · obtain ⟨a, hmem, hblame⟩ := blames_of_arguments hm hk hlub hargs hfails hu ha h
        exact hblame.mono fun x hx => Expr.mem_postorder_tuple.2 (.inl ⟨a, hmem, hx⟩)
      · cases h
  | @select m c t f hlub hc ht' hf ihc iht ihf =>
    intro st d ha h
    rw [StampedExpr.inputUses] at hu hpath
    obtain ⟨huc, hu⟩ := List.append_subset.1 hu
    obtain ⟨hut, huf⟩ := List.append_subset.1 hu
    obtain ⟨hpc, hpath⟩ := List.forall_mem_append.1 hpath
    obtain ⟨hpt, hpf⟩ := List.forall_mem_append.1 hpath
    have ha : m.stamp.axes <+: st.logical := ha
    have hpre {e : StampedExpr} (he : e.axes ∈ [c.axes, t.axes, f.axes]) : e.axes <+: st.logical :=
      (Axes.prefix_of_lub hlub he).trans ha
    cases ht with
    | select _ _ htc htt htf =>
      rw [lower] at h
      rcases StateT.bind_eq_error.1 h with h | ⟨_, _, halign, h⟩
      · rw [align_covered _ ha] at h
        cases h
      rw [align_covered _ ha] at halign
      cases halign
      rcases StateT.bind_eq_error.1 h with h | ⟨rc, st₁, hone, h⟩
      · exact (ihc htc huc hpc _ d (hpre (by simp)) h).mono fun x hx =>
          Expr.mem_postorder_select.2 (.inl hx)
      obtain ⟨_, hext⟩ := (traces hm hc hk huc).extends (hpre (by simp)) hone
      have hst₁ := hext.logical_eq
      rcases StateT.bind_eq_error.1 h with h | ⟨rt, st₂, htwo, h⟩
      · exact (iht htt hut hpt _ d (hst₁ ▸ hpre (by simp)) h).mono fun x hx =>
          Expr.mem_postorder_select.2 (.inr (.inl hx))
      obtain ⟨_, hext⟩ := (traces hm ht' hk hut).extends (hst₁ ▸ hpre (by simp)) htwo
      have hst₂ := hext.logical_eq
      rcases StateT.bind_eq_error.1 h with h | ⟨_, _, -, h⟩
      · exact (ihf htf huf hpf _ d (hst₂ ▸ hst₁ ▸ hpre (by simp)) h).mono fun x hx =>
          Expr.mem_postorder_select.2 (.inr (.inr (.inl hx)))
      · cases h
  | reduce happ hred hc ih =>
    intro st d ha h
    rw [StampedExpr.inputUses] at hu hpath
    cases ht with
    | reduce hf _ htyped =>
      rw [lower] at h
      exact blames_of_reduction hm hf happ hred hc hd hu (ih htyped hu hpath) ha h

/-- At the start, loops over the axes of a body cannot be opened only if one has no carrier. -/
theorem align_eq_error (hm : env.carriers.Records uses) {body : StampedExpr}
    (hc : body.Consistent inputs decls)
    (hd : ∀ name stamp, decls.lookup name = some stamp → env.carriers.Covers stamp.axes)
    (hu : StampedExpr.inputUses body ⊆ uses) {d : Diagnostic}
    (h : align env body.axes body .empty = .error d) :
    d.code ∈ failureCodes ∧ ¬env.carriers.Covers body.axes := by
  cases hb : body.axes with
  | nil =>
    rw [hb, align_covered _ List.nil_prefix] at h
    cases h
  | cons a rest =>
    have hopen : openFrom env body body.axes 0 .empty = .error d := by
      rw [hb] at h ⊢
      exact h
    obtain ⟨k, hk, st', h⟩ := StateT.forM_eq_error hopen
    have hk := List.mem_range'_1.1 hk
    have hne : body.axes.take k ≠ [] := by
      intro hnil
      have := congrArg List.length hnil
      rw [List.length_take, List.length_nil] at this
      omega
    obtain ⟨hcode, hnot⟩ := missingAnchor_of_openLoop hm hc hd hu hne (List.take_prefix _ _) h
    exact ⟨by rw [hcode]; decide, hb ▸ hnot⟩

end Failures

end Lowering

namespace StampedDecl

/-- There are carriers for the loops of a declaration, and its reductions can be lowered. -/
structure Lowerable (env : Lowering.Env) (d : StampedDecl) : Prop where
  carried : env.carriers.Covers d.stamp.axes
  body : d.body.Lowerable env

end StampedDecl

namespace LoopCode

open Lowering

variable {env : Lowering.Env} {uses : List InputUse} {inputs : InputTable}
  {known : String → Option StampedExpr} {decls : List (String × Stamp)} {d : StampedDecl}

/-- A declaration that was lowered can be lowered. -/
theorem lowerable_of_ofDecl (hm : env.carriers.Records uses)
    (hc : d.body.Consistent inputs decls) (hs : d.stamp = d.body.note.stamp)
    (hk : ∀ name stamp, decls.lookup name = some stamp →
      ∃ body, known name = some body ∧ body.axes = stamp.axes)
    (hu : StampedExpr.inputUses d.body ⊆ uses) {c : LoopCode}
    (h : ofDecl d env.carriers env.registry = .ok c) : d.Lowerable env := by
  obtain ⟨n, hn, -, -⟩ := nest_ofDecl hm hc hk hu h
  refine ⟨?_, lowerable_of_emits hm hn.emits d.body (List.mem_singleton.2 rfl)⟩
  have haxes : d.stamp.axes = d.body.axes := congrArg Stamp.axes hs
  rw [haxes]
  by_cases hne : d.body.axes = []
  · rw [hne]
    exact fun p hp hp' => absurd (List.prefix_nil.1 hp) hp'
  · obtain ⟨path, hfind⟩ := hn.opens.exists_find? hne
    exact hm.covers hfind

/-- Lowering a declaration fails only if it cannot be lowered. -/
theorem ofDecl_eq_error (hm : env.carriers.Records uses)
    (hc : d.body.Consistent inputs decls) (ht : d.body.Typed inputs env.registry decls)
    (hs : d.stamp = d.body.note.stamp)
    (hk : ∀ name stamp, decls.lookup name = some stamp →
      ∃ body, known name = some body ∧ body.axes = stamp.axes)
    (hd : ∀ name stamp, decls.lookup name = some stamp → env.carriers.Covers stamp.axes)
    (hu : StampedExpr.inputUses d.body ⊆ uses)
    (hpath : ∀ u ∈ StampedExpr.inputUses d.body, u.path ≠ []) {e : Diagnostic}
    (h : ofDecl d env.carriers env.registry = .error e) :
    e.code ∈ failureCodes ∧ ¬d.Lowerable env := by
  rw [ofDecl] at h
  split at h
  · rename_i e' hbody
    cases h
    rcases StateT.bind_eq_error.1 hbody with h | ⟨_, st₁, halign, h⟩
    · obtain ⟨hcode, hnot⟩ := align_eq_error hm hc hd hu h
      refine ⟨hcode, fun hl => hnot ?_⟩
      have := hl.carried
      rwa [hs] at this
    obtain ⟨os, hos⟩ := opened_of_align hm hu d.body.span halign
    rcases StateT.bind_eq_error.1 h with h | ⟨_, _, -, h⟩
    · obtain ⟨hcode, hnot⟩ := failsOnly hm hc ht hk hd hu hpath _ _ hos.covers h
      exact ⟨hcode, fun hl => hnot hl.body⟩
    · cases h
  · cases h

end LoopCode

namespace StampedModule

open Lowering

/-- Declarations are lowered just if each of them can be. -/
theorem outcome_mapM {env : Lowering.Env} {uses : List InputUse} (hm : env.carriers.Records uses)
    {inputs : InputTable} (done : List StampedDecl) {ds : List StampedDecl}
    (hdone : ∀ d ∈ done, d.stamp = d.body.note.stamp)
    (hcovers : ∀ d ∈ done, env.carriers.Covers d.stamp.axes)
    (hc : ConsistentFrom inputs (stamps done) ds)
    (ht : TypedFrom inputs env.registry (stamps done) ds)
    (hu : ∀ d ∈ ds, StampedExpr.inputUses d.body ⊆ uses)
    (hpath : ∀ d ∈ ds, ∀ u ∈ StampedExpr.inputUses d.body, u.path ≠ []) :
    (∀ cs, (ds.mapM fun d => LoopCode.ofDecl d env.carriers env.registry) = .ok cs →
      ∀ d ∈ ds, d.Lowerable env) ∧
    ∀ e, (ds.mapM fun d => LoopCode.ofDecl d env.carriers env.registry) = .error e →
      e.code ∈ failureCodes ∧ ¬∀ d ∈ ds, d.Lowerable env := by
  induction ds generalizing done with
  | nil => exact ⟨fun _ _ => List.forall_mem_nil _, fun e h => nomatch h⟩
  | cons d ds ih =>
    obtain ⟨hbody, hstamp, hcrest⟩ := hc
    obtain ⟨htbody, htrest⟩ := ht
    obtain ⟨hud, hurest⟩ := List.forall_mem_cons.1 hu
    obtain ⟨hpd, hprest⟩ := List.forall_mem_cons.1 hpath
    rw [← stamps_append] at hcrest htrest
    have hk : ∀ name stamp, (stamps done).lookup name = some stamp →
        ∃ body, bodies done name = some body ∧ body.axes = stamp.axes :=
      fun _ _ hl => exists_body_of_lookup_stamps hdone hl
    have hd : ∀ name stamp, (stamps done).lookup name = some stamp →
        env.carriers.Covers stamp.axes := by
      intro name stamp hl
      rw [lookup_stamps] at hl
      obtain ⟨d', hfind, rfl⟩ := Option.map_eq_some_iff.1 hl
      exact hcovers d' (List.mem_of_find?_eq_some hfind)
    have hrest (hl : d.Lowerable env) :=
      ih (done ++ [d]) (List.forall_mem_append.2 ⟨hdone, List.forall_mem_singleton.2 hstamp⟩)
        (List.forall_mem_append.2 ⟨hcovers, List.forall_mem_singleton.2 hl.carried⟩)
        hcrest htrest hurest hprest
    refine ⟨fun cs h => ?_, fun e h => ?_⟩
    · rw [List.mapM_cons] at h
      obtain ⟨c, hok, h⟩ := Except.bind_eq_ok.1 h
      obtain ⟨cs', hcs, -⟩ := Except.bind_eq_ok.1 h
      have hl := LoopCode.lowerable_of_ofDecl hm hbody hstamp hk hud hok
      exact List.forall_mem_cons.2 ⟨hl, (hrest hl).1 cs' hcs⟩
    · rw [List.mapM_cons] at h
      rcases Except.bind_eq_error.1 h with h | ⟨c, hok, h⟩
      · obtain ⟨hcode, hnot⟩ :=
          LoopCode.ofDecl_eq_error hm hbody htbody hstamp hk hd hud hpd h
        exact ⟨hcode, fun hall => hnot (hall d List.mem_cons_self)⟩
      · have hl := LoopCode.lowerable_of_ofDecl hm hbody hstamp hk hud hok
        rcases Except.bind_eq_error.1 h with h | ⟨_, -, h⟩
        · obtain ⟨hcode, hnot⟩ := (hrest hl).2 e h
          exact ⟨hcode, fun hall => hnot fun d' hd' => hall d' (List.mem_cons_of_mem _ hd')⟩
        · cases h

end StampedModule

namespace LoopModule

open Lowering

/-- A stamped module with carriers is lowered just if there is a carrier for each of its loops, and
for each reduction something to reduce and a value to start from. If it is not, then for lack of
one of these. -/
theorem ofStamped_succeeds_iff {ds : List (Declaration Span)} {g : Graph} {inputs : InputTable}
    {registry : Registry} {a : Analysis} {sm : StampedModule} {carriers : CarrierMap}
    (hg : Graph.ofDeclarations ds = .ok g)
    (hpath : ∀ d ∈ g.declarations, ∀ n path, .input n path ∈ d.body.postorder → path ≠ [])
    (ha : Analysis.ofGraph g inputs registry = .ok a)
    (hsm : StampedModule.ofGraph g a registry = .ok sm)
    (hm : CarrierMap.ofModule sm = .ok carriers) :
    ((∃ m, ofStamped sm carriers registry = .ok m) ↔
      ∀ d ∈ sm.decls, d.Lowerable ⟨carriers, registry⟩) ∧
    ∀ e, ofStamped sm carriers registry = .error e →
      e.code.map Code.text ∈ [some "E0303", some "E0105", some "E0301"] := by
  have hfaithful := StampedModule.faithfulFrom_ofGraph hg ha hsm
  let env : Env := ⟨carriers, registry⟩
  have hrecords : env.carriers.Records sm.inputUses := CarrierMap.records_ofModule hm
  have hpaths : ∀ d ∈ sm.decls, ∀ u ∈ StampedExpr.inputUses d.body, u.path ≠ [] := by
    intro d hd u hu
    obtain ⟨d', hd', n, hmem⟩ := hfaithful.uses d hd u hu
    exact hpath d' hd' n u.path hmem
  obtain ⟨hok, herror⟩ := StampedModule.outcome_mapM hrecords [] (List.forall_mem_nil _)
    (List.forall_mem_nil _) hfaithful.consistent hfaithful.typed
    (fun d hd u hu => List.mem_flatMap.2 ⟨d, hd, hu⟩) hpaths
  have herror : ∀ e, ofStamped sm carriers registry = .error e →
      e.code ∈ failureCodes ∧ ¬∀ d ∈ sm.decls, d.Lowerable env := by
    intro e h
    rcases Except.bind_eq_error.1 h with h | ⟨_, -, h⟩
    · exact herror e h
    · cases h
  refine ⟨⟨fun ⟨m, h⟩ => ?_, fun hall => ?_⟩, fun e h => ?_⟩
  · obtain ⟨cs, hcs, -⟩ := Except.bind_eq_ok.1 h
    exact hok cs hcs
  · cases h : ofStamped sm carriers registry with
    | ok m => exact ⟨m, rfl⟩
    | error e => exact absurd hall (herror e h).2
  · exact List.mem_map_of_mem (f := Option.map Code.text) (herror e h).1

/-- The largest cell of each row, and their sum over all rows. -/
def rowPeaks : List (Declaration Span) :=
  [⟨"peak", .value, .reduce .zero "max" none (.input .zero ["rows", "cells"]), .zero⟩,
    ⟨"peaks", .value, .call .zero "sum" [.ref .zero "peak"], .zero⟩]

def rowPeaksProgram : Program where
  inputs := InputTable.put .empty ⟨["rows", "cells"], [⟨"row"⟩, ⟨"cell"⟩], .float, .zero⟩
  graph := ⟨Graph.numberFrom 0 rowPeaks⟩

theorem rowPeaks_succeeds_iff :
    ∃ a sm carriers, Graph.ofDeclarations rowPeaks = .ok rowPeaksProgram.graph ∧
      (∀ d ∈ rowPeaksProgram.graph.declarations, ∀ n path,
        .input n path ∈ d.body.postorder → path ≠ []) ∧
      Analysis.ofGraph rowPeaksProgram.graph rowPeaksProgram.inputs .builtins = .ok a ∧
      StampedModule.ofGraph rowPeaksProgram.graph a .builtins = .ok sm ∧
      CarrierMap.ofModule sm = .ok carriers ∧ (∃ m, ofStamped sm carriers .builtins = .ok m) ∧
      ∀ d ∈ sm.decls, d.Lowerable ⟨carriers, .builtins⟩ := by
  have hok : Session.failed? (rowPeaksProgram.lowering .builtins true).1 = none := by decide +kernel
  obtain ⟨a, sm, carriers, m, ha, hsm, hm, hl, -⟩ := Session.run_lower hok
  have hg : Graph.ofDeclarations rowPeaks = .ok rowPeaksProgram.graph := rfl
  have hpath : ∀ d ∈ rowPeaksProgram.graph.declarations, ∀ n path,
      .input n path ∈ d.body.postorder → path ≠ [] := by
    simp [rowPeaksProgram, rowPeaks, Graph.numberFrom, Expr.number, Expr.numberAll, Expr.postorder,
      Expr.postorderAll]
  exact ⟨a, sm, carriers, hg, hpath, ha, hsm, hm, ⟨m, hl⟩,
    (ofStamped_succeeds_iff hg hpath ha hsm hm).1.1 ⟨m, hl⟩⟩

end LoopModule
end LoopNest
