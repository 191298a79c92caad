import LoopNest.Proofs.Carriers
import LoopNest.Proofs.Lowering.Emitted
import LoopNest.Proofs.Lowering.Law
import LoopNest.Proofs.Stamp.Consistency

/-! Lowering emits code of the given shape. The loops around a node always cover its axes, so
nothing is closed or opened on the way except by reductions, and these leave the loops around as
they were. The log of the lookups tells the inputs on the way. -/
namespace LoopNest

namespace Emission

def places (st : Emission) : List (Place Reg) := st.frames.map Frame.place

theorem logicalOf_places (st : Emission) : Place.logicalOf st.places = st.logical := by
  unfold places logical
  cases st.frames with
  | nil => rfl
  | cons f fs => rfl

/-- Some instructions are appended; the same loops are open. -/
structure Extends (st st' : Emission) (is : List Instr) : Prop where
  code : st'.code = st.code ++ is
  frames : st'.frames = st.frames
  floor : st'.floor = st.floor

namespace Extends

variable {st st' st'' : Emission} {is js : List Instr}

theorem refl (st : Emission) : Extends st st [] := ⟨by simp, rfl, rfl⟩

theorem trans (h : Extends st st' is) (h' : Extends st' st'' js) : Extends st st'' (is ++ js) :=
  ⟨by rw [h'.code, h.code, List.append_assoc], h'.frames.trans h.frames, h'.floor.trans h.floor⟩

theorem places_eq (h : Extends st st' is) : st'.places = st.places := by
  unfold places
  rw [h.frames]

theorem logical_eq (h : Extends st st' is) : st'.logical = st.logical := by
  rw [← logicalOf_places, ← logicalOf_places, h.places_eq]

end Extends

theorem extends_value {st st' : Emission} {op : Op} {span : Span} {r : Reg}
    (h : st.value op span = (r, st')) : Extends st st' [⟨some r, op, span⟩] := by
  cases h
  exact ⟨rfl, rfl, rfl⟩

theorem walks_walk {st st' : Emission} {base r : Reg} {dtype : Option DType} {span : Span}
    {keys : FieldPath} (h : st.walk base dtype span keys = (r, st')) :
    ∃ is, Extends st st' is ∧ Walks dtype base keys is r := by
  induction keys generalizing st base with
  | nil =>
    cases h
    exact ⟨[], .refl _, .stay⟩
  | cons key keys ih =>
    cases keys with
    | nil => exact ⟨_, extends_value h, .load .stay⟩
    | cons next keys =>
      change (st.value (.loadField base key none) span).2.walk _ dtype span _ = _ at h
      obtain ⟨is, hext, hw⟩ := ih h
      exact ⟨_, (extends_value rfl).trans hext, .load hw⟩

/-- Ending loops that were started on top of others leaves these open. -/
theorem closeLoops_append {st : Emission} {span : Span} {top rest : List Frame}
    (h : st.frames = top ++ rest) :
    st.closeLoops span top.length =
      { st with
        code := st.code ++ top.map fun f => ⟨none, .loopEnd f.id, span⟩
        frames := rest } := by
  induction top generalizing st with
  | nil =>
    rw [List.nil_append] at h
    rw [List.map_nil, List.append_nil, ← h]
    rfl
  | cons f top ih =>
    have hclose : st.closeLoop span =
        { st with
          code := st.code ++ [⟨none, .loopEnd f.id, span⟩]
          frames := top ++ rest } := by
      rw [closeLoop, h]
      rfl
    rw [List.length_cons, closeLoops, hclose, ih rfl, List.map_cons, List.append_assoc]
    rfl

theorem closeTo_append {st : Emission} {span : Span} {top rest : List Frame}
    (h : st.frames = top ++ rest) :
    st.closeTo rest.length span =
      { st with
        code := st.code ++ top.map fun f => ⟨none, .loopEnd f.id, span⟩
        frames := rest } := by
  have hlen : st.frames.length - rest.length = top.length := by
    rw [h, List.length_append]
    omega
  rw [closeTo, hlen, closeLoops_append h]

end Emission

namespace Lowering

open Emission

variable {env : Env} {known : String → Option StampedExpr} {st st' : Emission}

theorem extends_of_value {op : Op} {span : Span} {r : Reg}
    (h : value op span st = .ok (r, st')) : Extends st st' [⟨some r, op, span⟩] :=
  extends_value (Except.ok.inj h)

theorem find?_places (st : Emission) (test : FieldPath → Bool) :
    Place.find? st.places test =
      (st.frames.find? fun f => test f.carrier).map Frame.place := by
  rw [Place.find?, places, List.find?_map]
  rfl

/-- A path is loaded from the innermost open loop that passes the test. -/
theorem loads_of_follow {test : FieldPath → Bool} {path : FieldPath} {dtype : Option DType}
    {span : Span} {r : Reg}
    (h : follow (fun f => test f.carrier) path dtype span st = .ok (r, st')) :
    ∃ is, Extends st st' is ∧ Loads dtype st.places test path is r := by
  have hplace := find?_places st test
  rcases follow_eq_ok h with ⟨f, hf, hwalk⟩ | ⟨root, keys, hf, rfl, hwalk⟩
  · rw [hf] at hplace
    obtain ⟨is, hext, hw⟩ := walks_walk hwalk
    exact ⟨is, hext, .place hplace hw⟩
  · rw [hf] at hplace
    obtain ⟨is, hext, hw⟩ := walks_walk hwalk
    exact ⟨_, (extends_value rfl).trans hext, .root hplace hw⟩

/-- Loops over more axes are opened inside of those that are open. They are going to end at the
given span. -/
structure Opened (carriers : CarrierMap) (stop : Span) (st st' : Emission) (axes rest : Axes)
    (os : List Opening) : Prop where
  code : st'.code = st.code ++ Opening.heads os
  frames : ∃ top, st'.frames = top ++ st.frames ∧
    (top.map fun f => ⟨none, .loopEnd f.id, stop⟩) = Opening.tails os
  floor : st'.floor = st.floor
  opens : Opens carriers st.places axes rest os st'.places

theorem Opened.nil (carriers : CarrierMap) (stop : Span) (st : Emission) (axes : Axes) :
    Opened carriers stop st st axes [] [] :=
  ⟨by simp [Opening.heads], ⟨[], rfl, rfl⟩, rfl, .nil⟩

/-- Code inside of loops that were opened, and then the ends of these loops. -/
theorem Opened.close {carriers : CarrierMap} {stop : Span} {last : Emission} {axes rest : Axes}
    {os : List Opening} {is : List Instr} (h : Opened carriers stop st st' axes rest os)
    (hext : Extends st' last is) :
    Extends st (last.closeTo st.frames.length stop)
      (Opening.heads os ++ (is ++ Opening.tails os)) := by
  obtain ⟨top, htop, htails⟩ := h.frames
  rw [closeTo_append (hext.frames.trans htop)]
  refine ⟨?_, rfl, hext.floor.trans h.floor⟩
  change last.code ++ _ = _
  rw [hext.code, h.code, htails]
  simp only [List.append_assoc]

theorem opened_of_openLoop {uses : List InputUse} (hm : env.carriers.Records uses)
    {anchor : StampedExpr} (hu : StampedExpr.inputUses anchor ⊆ uses) {axes rest : Axes} {a : Axis}
    {os : List Opening} {stop : Span} {st'' : Emission}
    (h : openLoop env anchor (axes ++ [a]) st = .ok ((), st'))
    (hrest : Opened env.carriers stop st' st'' (axes ++ [a]) rest os) :
    ∃ o, Opened env.carriers stop st st'' axes (a :: rest) (o :: os) := by
  obtain ⟨carrier, c, st₁, hchoose, hcoll, rfl⟩ := openLoop_eq_ok List.getLast?_concat h
  have hfind := Carrier.find?_of_choose hm hu (by simp) hchoose
  have hfollow : follow (fun f => carrier.inside f.carrier) carrier none anchor.span st =
    .ok (c, st₁) := hcoll
  obtain ⟨is, hext, hloads⟩ := loads_of_follow hfollow
  obtain ⟨top, htop, hids⟩ := hrest.frames
  let element := st₁.counter.nextReg.1
  let id := st₁.counter.nextReg.2.nextReg.2.nextLoop.1
  refine ⟨⟨is, a, c, element, st₁.counter.nextReg.2.nextReg.1, id, anchor.span, stop⟩,
    ⟨?_, ⟨top ++ [⟨axes ++ [a], carrier, element, id⟩], ?_, ?_⟩, ?_, ?_⟩⟩
  · rw [hrest.code, Opening.heads_cons]
    change st₁.code ++ [_] ++ _ = _
    rw [hext.code, List.append_assoc, List.append_assoc]
    rfl
  · rw [htop, List.append_assoc, ← hext.frames]
    rfl
  · rw [List.map_append, hids, Opening.tails_cons]
    rfl
  · exact hrest.floor.trans hext.floor
  · refine .cons hfind rfl hloads ?_
    rw [← hext.places_eq]
    exact hrest.opens

/-- Loops that are opened one by one, each over one axis more than the one before. -/
theorem opened_of_forM {uses : List InputUse} (hm : env.carriers.Records uses)
    {anchor : StampedExpr} (hu : StampedExpr.inputUses anchor ⊆ uses) {axes rest : Axes}
    (stop : Span) {f : Nat → Lower Unit} {start : Nat}
    (hf : ∀ k st r, k < rest.length → f (start + k) st = .ok r →
      openLoop env anchor (axes ++ rest.take (k + 1)) st = .ok r)
    (h : (List.range' start rest.length).forM f st = .ok ((), st')) :
    ∃ os, Opened env.carriers stop st st' axes rest os := by
  induction rest generalizing axes start st with
  | nil =>
    cases h
    exact ⟨[], .nil _ _ _ _⟩
  | cons a rest ih =>
    rw [List.length_cons, List.range'_succ] at h
    obtain ⟨_, st₁, hone, h⟩ := StateT.bind_eq_ok.1 h
    have hnext : ∀ k st r, k < rest.length → f (start + 1 + k) st = .ok r →
        openLoop env anchor (axes ++ [a] ++ rest.take (k + 1)) st = .ok r := by
      intro k st r hk hr
      rw [List.append_assoc]
      refine hf (k + 1) st r (Nat.succ_lt_succ hk) ?_
      rwa [Nat.add_comm k 1, ← Nat.add_assoc]
    obtain ⟨os, hos⟩ := ih hnext h
    obtain ⟨o, ho⟩ := opened_of_openLoop hm hu (hf 0 st _ (Nat.succ_pos _) hone) hos
    exact ⟨o :: os, ho⟩

theorem opened_of_openReduction {uses : List InputUse} (hm : env.carriers.Records uses) {m : Mark}
    {op : String} {reduced : Axes} {arg : StampedExpr} (hu : StampedExpr.inputUses arg ⊆ uses)
    (stop : Span) (h : openReduction env m op reduced arg st = .ok ((), st')) :
    ∃ os, Opened env.carriers stop st st' m.stamp.axes reduced os := by
  refine opened_of_forM hm hu stop (fun k st r hk hr => ?_) h
  rw [Nat.add_comm 1 k] at hr
  exact Except.mapError_eq_ok.1 hr

theorem opened_of_openFrom {uses : List InputUse} (hm : env.carriers.Records uses)
    {anchor : StampedExpr} (hu : StampedExpr.inputUses anchor ⊆ uses) {target : Axes} (stop : Span)
    (h : openFrom env anchor target 0 st = .ok ((), st')) :
    ∃ os, Opened env.carriers stop st st' [] target os := by
  have hloop : ∀ k st r, k < target.length → openLoop env anchor (target.take (1 + k)) st = .ok r →
      openLoop env anchor ([] ++ target.take (k + 1)) st = .ok r := by
    intro k st r _ hr
    rwa [Nat.add_comm 1 k] at hr
  exact opened_of_forM hm hu stop hloop h

/-- Nothing changes where the open loops cover the axes. -/
theorem align_covered {target : Axes} (anchor : StampedExpr) (h : target <+: st.logical) :
    align env target anchor st = .ok ((), st) := by
  change (if target.isPrefixOf st.logical then pure () else _ : Lower Unit) st = _
  rw [if_pos (List.isPrefixOf_iff_prefix.2 h)]
  rfl

namespace Logged

variable {log log' : List Lookup}

theorem align_covered {target : Axes} (anchor : StampedExpr) (h : target <+: st.logical) :
    align env target anchor st log = (.ok ((), st), log) := by
  change (if target.isPrefixOf st.logical then pure () else _ : Logged Unit) st log = _
  rw [if_pos (List.isPrefixOf_iff_prefix.2 h)]
  rfl

/-- A step that holds the open loops changes the floor only while it runs. -/
theorem holding_eq_ok {α : Type} {step : Logged α} {a : α}
    (h : holding step st log = (.ok (a, st'), log')) :
    ∃ last, step { st with floor := st.frames.length } log = (.ok (a, last), log') ∧
      st' = { last with floor := st.floor } := by
  obtain ⟨_, _, _, hget, h₁⟩ := bind_eq_ok.1 h
  cases hget
  obtain ⟨_, _, _, hset, h₂⟩ := bind_eq_ok.1 h₁
  cases hset
  obtain ⟨_, last, _, hstep, h₃⟩ := bind_eq_ok.1 h₂
  cases h₃
  exact ⟨last, hstep, rfl⟩

end Logged

/-- The input that a lookup asks for, with the register that it gets and the loops that are open. -/
def Lookup.reference? (env : Env) (a : Lookup) : Option Reference := do
  let use ← a.use?
  let (r, _) ← (a.query.answer env a.before).toOption
  return ⟨use, r, a.before.places⟩

theorem filterMap_reference? {log : List Lookup} (h : log.filterMap Lookup.use? = []) :
    log.filterMap (Lookup.reference? env) = [] := by
  refine List.filterMap_eq_nil_iff.2 fun a ha => ?_
  rw [Lookup.reference?, List.filterMap_eq_nil_iff.1 h a ha]
  rfl

/-- Code for expressions is appended, and the inputs that it reads are looked up. -/
def Emitted (env : Env) (known : String → Option StampedExpr) (st : Emission) (log : List Lookup)
    (st' : Emission) (log' : List Lookup) (es : List StampedExpr) (rs : List Reg) : Prop :=
  ∃ b new, Extends st st' b.instrs ∧ log' = log ++ new ∧
    Emits env false known st.places es b rs (new.filterMap (Lookup.reference? env))

section Emitted

variable {log log' log'' : List Lookup}

theorem Emitted.nil (st : Emission) (log : List Lookup) : Emitted env known st log st log [] [] :=
  ⟨.done, [], .refl _, (List.append_nil _).symm, .nil⟩

theorem Emitted.append {st'' : Emission} {es es' : List StampedExpr} {rs rs' : List Reg}
    (h : Emitted env known st log st' log' es rs)
    (h' : Emitted env known st' log' st'' log'' es' rs') :
    Emitted env known st log st'' log'' (es ++ es') (rs ++ rs') := by
  obtain ⟨b, new, hext, rfl, hb⟩ := h
  obtain ⟨b', new', hext', rfl, hb'⟩ := h'
  rw [hext.places_eq] at hb'
  refine ⟨b ++ b', new ++ new', ?_, List.append_assoc .., ?_⟩
  · rw [Block.instrs_append]
    exact hext.trans hext'
  · rw [List.filterMap_append]
    exact hb.append hb'

theorem Emitted.logical_eq {es : List StampedExpr} {rs : List Reg}
    (h : Emitted env known st log st' log' es rs) : st'.logical = st.logical := by
  obtain ⟨b, new, hext, -⟩ := h
  exact hext.logical_eq

/-- An operation on values that were computed before. -/
theorem Emitted.value {st'' : Emission} {es : List StampedExpr} {rs : List Reg}
    (h : Emitted env known st log st' log' es rs) {op : Op} {span : Span} {r : Reg}
    (hv : Logged.quiet (value op span) st' log' = (.ok (r, st''), log'')) {e : StampedExpr}
    (hop : ∀ b refs, Emits env false known st.places es b rs refs →
      Emits env false known st.places [e] (b ++ .step ⟨some r, op, span⟩ .done) [r]
        (refs ++ [])) :
    Emitted env known st log st'' log'' [e] [r] := by
  obtain ⟨hvalue, rfl⟩ := Logged.quiet_eq_ok.1 hv
  obtain ⟨b, new, hext, hlog, hb⟩ := h
  have hb := hop b _ hb
  rw [List.append_nil] at hb
  refine ⟨_, new, ?_, hlog, hb⟩
  rw [Block.instrs_append]
  exact hext.trans (extends_of_value hvalue)

/-- An expression is lowered to its code, under loops that cover its axes. -/
def Traces (env : Env) (known : String → Option StampedExpr) (e : StampedExpr) : Prop :=
  ∀ st log r st' log', e.axes <+: st.logical →
    Logged.lower env e st log = (.ok (r, st'), log') → Emitted env known st log st' log' [e] [r]

theorem emitted_of_lowerAll {es : List StampedExpr} (he : ∀ e ∈ es, Traces env known e)
    (ha : ∀ e ∈ es, e.axes <+: st.logical) {rs : List Reg}
    (h : Logged.lowerAll env es st log = (.ok (rs, st'), log')) :
    Emitted env known st log st' log' es rs := by
  induction es generalizing st log rs with
  | nil =>
    rw [Logged.lowerAll] at h
    cases h
    exact .nil _ _
  | cons e es ih =>
    rw [Logged.lowerAll] at h
    obtain ⟨r, st₁, log₁, hone, h⟩ := Logged.bind_eq_ok.1 h
    obtain ⟨rs', st₂, log₂, hall, hp⟩ := Logged.bind_eq_ok.1 h
    cases hp
    have hfirst := he e List.mem_cons_self _ _ _ _ _ (ha e List.mem_cons_self) hone
    refine hfirst.append (ih (fun e' h' => he e' (List.mem_cons_of_mem _ h')) ?_ hall)
    intro e' h'
    rw [hfirst.logical_eq]
    exact ha e' (List.mem_cons_of_mem _ h')

/-- The loops of a reduction are opened and ended around the code of its argument. -/
theorem emitted_of_reduction {uses : List InputUse} (hm : env.carriers.Records uses) {m : Mark}
    {op : String} {reduced : Axes} {arg : StampedExpr} (hu : StampedExpr.inputUses arg ⊆ uses)
    (hr : reduced = [] → arg.axes = []) (harg : Traces env known arg)
    (ha : m.stamp.axes <+: st.logical) {r : Reg}
    (h : Logged.reduction env m op reduced arg (Logged.lower env arg) st log =
      (.ok (r, st'), log')) :
    Emitted env known st log st' log' [.reduce m op reduced arg] [r] := by
  unfold Logged.reduction at h
  split at h
  · cases h
  · rename_i hscalar
    split at h
    · cases h
    · rename_i haxes
      obtain ⟨start, _, _, hlift, h₁⟩ := Logged.bind_eq_ok.1 h
      obtain ⟨hstart, rfl⟩ := Logged.quiet_eq_ok.1 hlift
      obtain ⟨hident, rfl⟩ := liftM_eq_ok hstart
      obtain ⟨_, _, _, halign, h₂⟩ := Logged.bind_eq_ok.1 h₁
      rw [Logged.align_covered _ ha] at halign
      cases halign
      obtain ⟨acc, st₁, _, hdecl, h₃⟩ := Logged.bind_eq_ok.1 h₂
      obtain ⟨hacc, rfl⟩ := Logged.quiet_eq_ok.1 hdecl
      have hst₁ :
          Extends st st₁ [⟨none, .declareAccumulator acc op start m.stamp.dtype, m.span⟩] := by
        cases hacc
        exact ⟨rfl, rfl, rfl⟩
      obtain ⟨_, _, _, hget, h₄⟩ := Logged.bind_eq_ok.1 h₃
      cases hget
      obtain ⟨_, st₂, _, hopen, h₅⟩ := Logged.bind_eq_ok.1 h₄
      obtain ⟨hopened, loops, rfl, hloops⟩ :=
        (Law.holds_openReduction (.refl env) trivial m op reduced arg).eq_ok hopen
      obtain ⟨os, hos⟩ := opened_of_openReduction hm hu m.span hopened
      obtain ⟨_, st₃, _, hhold, h₆⟩ := Logged.bind_eq_ok.1 h₅
      obtain ⟨last, hstep, rfl⟩ := Logged.holding_eq_ok hhold
      obtain ⟨v, st₄, _, hlower, hemit⟩ := Logged.bind_eq_ok.1 hstep
      cases hemit
      obtain ⟨_, _, _, hclose, hload⟩ := Logged.bind_eq_ok.1 h₆
      cases hclose
      obtain ⟨hresult, rfl⟩ := Logged.quiet_eq_ok.1 hload
      have haxes : arg.axes = m.stamp.axes ++ reduced := not_not.1 haxes
      have hred : reduced ≠ [] := fun hnil => hscalar (hr hnil)
      have hlogical : st₂.logical = arg.axes := by
        rw [haxes, ← logicalOf_places, hos.opens.logicalOf_eq hred]
      have hcover : arg.axes <+: { st₂ with floor := st₂.frames.length }.logical :=
        hlogical ▸ List.prefix_refl st₂.logical
      obtain ⟨b, new, hb, hlog, hemits⟩ := harg _ _ v st₄ _ hcover hlower
      have hbody :
          Extends st₂ { st₄.emit none (.accumulate acc op v) m.span with floor := st₂.floor }
          (b.instrs ++ [⟨none, .accumulate acc op v, m.span⟩]) := by
        refine ⟨?_, hb.frames, rfl⟩
        change st₄.code ++ _ = _
        rw [hb.code, List.append_assoc]
      refine ⟨.step ⟨none, .declareAccumulator acc op start m.stamp.dtype, m.span⟩
        (Opening.wrap os (b ++ .step ⟨none, .accumulate acc op v, m.span⟩ .done) ++
          .step ⟨some r, .loadAccumulator acc m.stamp.dtype, m.span⟩ .done), loops ++ new, ?_,
        by rw [hlog, List.append_assoc], ?_⟩
      · have hall := (hst₁.trans (hos.close hbody)).trans (extends_of_value hresult)
        simpa [Opening.instrs_wrap] using hall
      · rw [List.filterMap_append, filterMap_reference? hloops, List.nil_append,
          ← List.append_nil (new.filterMap _)]
        exact .reduce (logicalOf_places st ▸ ha) haxes hred hident (hst₁.places_eq ▸ hos.opens)
          hemits .nil

end Emitted

theorem inputUses_subset_all {e : StampedExpr} {es : List StampedExpr} (h : e ∈ es) :
    StampedExpr.inputUses e ⊆ StampedExpr.inputUsesAll es := by
  rw [StampedExpr.inputUsesAll_eq]
  exact fun u hu => List.mem_flatMap.2 ⟨e, h, hu⟩

/-- Lowering emits the code of a consistent expression. -/
theorem traces {uses : List InputUse} (hm : env.carriers.Records uses) {inputs : InputTable}
    {decls : List (String × Stamp)} {e : StampedExpr} (hc : e.Consistent inputs decls)
    (hk : ∀ name stamp, decls.lookup name = some stamp →
      ∃ body, known name = some body ∧ body.axes = stamp.axes)
    (hu : StampedExpr.inputUses e ⊆ uses) : Traces env known e := by
  induction hc with
  | constant _ =>
    intro st log r st' log' _ h
    exact (Emitted.nil st log).value h fun b refs hb => by
      cases hb
      exact .constant .nil
  | @input m path _ _ _ =>
    intro st log r st' log' _ h
    obtain ⟨hv, rfl⟩ := Logged.asking_eq_ok.1 h
    obtain ⟨is, hext, hl⟩ := loads_of_follow hv
    have hreference : Lookup.reference? env ⟨.input m path, st⟩ =
        some ⟨⟨path, m.stamp.axes, m.span⟩, r, st.places⟩ := by
      have hanswer : Query.answer env (.input m path) st = .ok (r, st') := hv
      simp only [Lookup.reference?, hanswer]
      rfl
    refine ⟨.steps is .done, [⟨.input m path, st⟩], ?_, rfl, ?_⟩
    · rwa [Block.instrs_steps, Block.instrs_done, List.append_nil]
    · rw [List.filterMap_cons_some hreference]
      exact .input hl .nil
  | ref hd hs =>
    intro st log r st' log' ha h
    obtain ⟨body, hbody, haxes⟩ := hk _ _ hd
    exact (Emitted.nil st log).value h fun b refs hb => by
      cases hb
      exact .load hbody (haxes.trans hs) (logicalOf_places st ▸ ha) .nil
  | @call m func args hlub _ ih =>
    intro st log r st' log' ha h
    rw [Logged.lower] at h
    obtain ⟨rs, st₁, log₁, hall, hv⟩ := Logged.bind_eq_ok.1 h
    have hargs := emitted_of_lowerAll
      (fun a hmem => ih a hmem (List.Subset.trans (inputUses_subset_all hmem) hu))
      (fun a hmem => (Axes.prefix_of_lub hlub (List.mem_map.2 ⟨a, hmem, rfl⟩)).trans ha) hall
    exact hargs.value hv fun b refs hb => .call hb .nil
  | @tuple m elems hlub _ ih =>
    intro st log r st' log' ha h
    rw [Logged.lower] at h
    obtain ⟨rs, st₁, log₁, hall, hv⟩ := Logged.bind_eq_ok.1 h
    have helems := emitted_of_lowerAll
      (fun a hmem => ih a hmem (List.Subset.trans (inputUses_subset_all hmem) hu))
      (fun a hmem => (Axes.prefix_of_lub hlub (List.mem_map.2 ⟨a, hmem, rfl⟩)).trans ha) hall
    exact helems.value hv fun b refs hb => .tuple hb .nil
  | @select m c t f hlub _ _ _ ihc iht ihf =>
    intro st log r st' log' ha h
    rw [Logged.lower] at h
    have ha : m.stamp.axes <+: st.logical := ha
    obtain ⟨_, _, _, halign, h₀⟩ := Logged.bind_eq_ok.1 h
    rw [Logged.align_covered _ ha] at halign
    cases halign
    obtain ⟨rc, st₁, log₁, hc, h₁⟩ := Logged.bind_eq_ok.1 h₀
    obtain ⟨rt, st₂, log₂, ht, h₂⟩ := Logged.bind_eq_ok.1 h₁
    obtain ⟨rf, st₃, log₃, hf, hv⟩ := Logged.bind_eq_ok.1 h₂
    rw [StampedExpr.inputUses] at hu
    obtain ⟨huc, hu⟩ := List.append_subset.1 hu
    obtain ⟨hut, huf⟩ := List.append_subset.1 hu
    have hpre {e : StampedExpr} (he : e.axes ∈ [c.axes, t.axes, f.axes]) : e.axes <+: st.logical :=
      (Axes.prefix_of_lub hlub he).trans ha
    have hc := ihc huc _ _ _ _ _ (hpre (by simp)) hc
    have ht := iht hut _ _ _ _ _ (hc.logical_eq ▸ hpre (by simp)) ht
    have hf := ihf huf _ _ _ _ _ (ht.logical_eq ▸ hc.logical_eq ▸ hpre (by simp)) hf
    exact (hc.append (ht.append hf)).value hv fun b refs hb => .select hb .nil
  | reduce haxes hred _ ih =>
    intro st log r st' log' ha h
    rw [Logged.lower] at h
    exact emitted_of_reduction hm (by rwa [StampedExpr.inputUses] at hu) hred (ih hu) ha h

/-- Where an expression is lowered, its code extends the code before. -/
theorem Traces.extends {e : StampedExpr} (he : Traces env known e) (ha : e.axes <+: st.logical)
    {r : Reg} (h : lower env e st = .ok (r, st')) : ∃ is, Extends st st' is := by
  have hlogged : (Logged.lower env e st []).1 = .ok (r, st') := by rw [Logged.lower_fst, h]
  obtain ⟨b, -, hext, -⟩ := he st [] r st' _ ha (Prod.ext hlogged rfl)
  exact ⟨_, hext⟩

end Lowering
end LoopNest
