import LoopNest.Proofs.Code.Acceptance
import LoopNest.Proofs.Lowering.Resolution
import LoopNest.Proofs.Lowering.Trace

/-! The code of a declaration, whatever its stamps say. They may disagree with each other and with
the inputs, so that loops are closed and opened anew between the operands of a node. The code is
valid nevertheless, no path is indexed out of range on the way, and registers stand for the paths
that they were asked for. -/
namespace LoopNest

/-- What valid code is, without its check: it reads what is introduced before, loops end innermost
first, and only ends of loops follow its one yield. -/
structure LoopCode.Balanced (is : List Instr) : Prop where
  reads : AtEach Instr.ReadsIntroduced [] is
  ends : AtEach Instr.EndsInnermost [] is
  closed : openLoops is = []
  yields : ∃ pre y post, is = pre ++ y :: post ∧ (∀ i ∈ pre, i.isYield = false) ∧
    y.isYield = true ∧ ∀ i ∈ post, i.op.opcode = .loopEnd

theorem LoopCode.Balanced.checkInstrs_eq {is : List Instr} (h : Balanced is) :
    checkInstrs is = .ok () := by
  obtain ⟨pre, y, post, his, hpre, hy, hpost⟩ := h.yields
  exact checkInstrs_eq_ok h.reads h.ends h.closed his hpre hy hpost

namespace Emission

variable {st : Emission} {v : Reg}

theorem Sound.finish (h : st.Sound) (hv : ∃ i ∈ st.code, v ∈ i.defs) (span : Span) :
    (st.finish v span).Sound ∧ (st.finish v span).frames = [] ∧
      (st.finish v span).code = st.code ++ ⟨none, .yield v, span⟩ ::
        st.frames.map fun f => ⟨none, .loopEnd f.id, span⟩ := by
  have hyield : (st.emit none (.yield v) span).Sound :=
    h.append_inner rfl rfl (h.numbered.emit rfl span)
      ⟨List.forall_mem_singleton.2 hv, List.forall_mem_nil _⟩ rfl
  have hframes : (st.emit none (.yield v) span).frames = st.frames ++ [] :=
    (List.append_nil _).symm
  have hclose : st.finish v span = _ := closeTo_append hframes
  refine ⟨(hyield.closeLoops span _).sound, ?_, ?_⟩
  · rw [hclose]
  · rw [hclose]
    exact List.append_assoc ..

/-- Sound code without a yield is finished to valid code. -/
theorem Sound.balanced_finish (h : st.Sound) (hsilent : ∀ i ∈ st.code, i.isYield = false)
    (hv : ∃ i ∈ st.code, v ∈ i.defs) (span : Span) :
    LoopCode.Balanced (st.finish v span).code := by
  obtain ⟨hsound, hframes, hcode⟩ := h.finish hv span
  have hloops := hsound.loops
  rw [hframes, List.map_nil, List.map_eq_nil_iff] at hloops
  refine ⟨hsound.reads, hsound.ends, hloops, _, _, _, hcode, hsilent, rfl, fun i hi => ?_⟩
  obtain ⟨f, -, rfl⟩ := List.mem_map.1 hi
  rfl

end Emission

namespace Lowering

open Emission

variable {env : Env} {all : List InputUse} {body : StampedExpr}

/-- The queries of a body come before its yield. -/
theorem lowerBody_apply (env : Env) (body : StampedExpr) :
    Logged.lowerBody env body .empty [] =
      match (Logged.align env body.axes body >>= fun _ => Logged.lower env body) .empty [] with
      | (.ok (v, st), log) => (.ok ((), st.finish v body.span), log)
      | (.error d, log) => (.error d, log) := by
  have hbody : Logged.lowerBody env body =
      (Logged.align env body.axes body >>= fun _ => Logged.lower env body) >>= fun v =>
        Logged.quiet (emit (.yield v) body.span) >>= fun _ =>
          Logged.quiet (modify fun e => e.closeTo 0 body.span) := (bind_assoc ..).symm
  rw [hbody, Logged.bind_apply]
  rcases (Logged.align env body.axes body >>= fun _ => Logged.lower env body) .empty [] with
    ⟨_ | ⟨v, st⟩, log⟩
  · rfl
  · rfl

/-- All queries of a body are asked from sound code. Where it is lowered, its code is the yield of a
value after sound code in which all queries are answered. -/
theorem lookups_spec (hm : env.carriers.Records all) (body : StampedExpr) :
    (∀ a ∈ lookups env body, a.Asked) ∧
      ∀ st, lowerBody env body .empty = .ok ((), st) → ∃ st₁ v,
        Done env .empty st₁ (lookups env body) body.inputUses ∧
          (∃ i ∈ st₁.code, v ∈ i.defs) ∧ st = st₁.finish v body.span := by
  obtain ⟨new, hlog, hasked, -, hok⟩ :=
    Law.holds_bodyValue (L := .soundness hm) (.refl env) sound_empty body []
  have hrun := lowerBody_apply env body
  rw [lookups]
  simp only [← Logged.lowerBody_fst env body .empty []]
  rcases hvalue : (Logged.align env body.axes body >>= fun _ => Logged.lower env body) .empty []
    with ⟨_ | ⟨v, st₁⟩, log⟩
  all_goals
    rw [hvalue] at hrun hlog hok
    simp only [hrun]
    rw [List.nil_append] at hlog
    subst hlog
  · exact ⟨hasked, fun st h => nomatch h⟩
  · refine ⟨hasked, fun st h => ?_⟩
    cases h
    obtain ⟨hdone, hv⟩ := hok v st₁ rfl
    exact ⟨st₁, v, hdone, hv, rfl⟩

theorem Lookup.startsAt_find? {path : FieldPath} {test : Frame → Bool} {frames : List Frame}
    (hne : path ≠ []) (htest : ∀ f, test f = true → f.carrier <+: path) :
    StartsAt path (frames.find? test) := by
  cases hf : frames.find? test with
  | none => exact List.length_pos_of_ne_nil hne
  | some f => exact (htest f (List.find?_some hf)).length_le

/-- What is asked from sound code is in range. -/
theorem Lookup.Asked.inRange (hm : env.carriers.Records all) {a : Lookup} (h : a.Asked) :
    a.InRange env := by
  obtain ⟨query, before⟩ := a
  cases query with
  | input m path =>
    cases path with
    | nil =>
      have hnone : (before.frames.find? fun f => FieldPath.startsWith [] f.carrier) = none := by
        refine List.find?_eq_none.2 fun f hf hstarts => h.sound.carried f hf ?_
        exact List.prefix_nil.1 ((FieldPath.startsWith_iff _ _).1 hstarts)
      refine StateT.bind_eq_error.2 (.inl (StateT.bind_eq_error.2 (.inr ⟨before, before, rfl, ?_⟩)))
      simp only [hnone]
      rfl
    | cons root keys =>
      exact startsAt_find? (List.cons_ne_nil _ _) fun f hf => (FieldPath.startsWith_iff _ _).1 hf
  | loop logical anchor =>
    have hne := h.axes logical anchor rfl
    refine ⟨hne, fun carrier hc => ?_⟩
    have hlength := Carrier.length_of_choose hm hc
    have hcarrier : carrier ≠ [] := by
      rintro rfl
      exact hne (List.length_eq_zero_iff.1 hlength.symm)
    refine ⟨hlength, startsAt_find? hcarrier fun f hf => ?_⟩
    exact (FieldPath.startsWith_iff _ _).1 (Bool.and_eq_true_iff.1 hf).2

/-- The answer to a query from sound code stands for what was asked for. -/
theorem Lookup.Asked.resolves {a : Lookup} (h : a.Asked) {r : Reg} {st : Emission}
    (hanswer : a.query.answer env a.before = .ok (r, st)) :
    ∃ path, a.query.path env = .ok path ∧ st.Resolves r path := by
  obtain ⟨query, before⟩ := a
  cases query with
  | input m path => exact ⟨path, rfl, (grows_of_inputValue h.sound hanswer).2⟩
  | loop logical anchor =>
    obtain ⟨carrier, st₀, hlift, hcollection⟩ := StateT.bind_eq_ok.1 hanswer
    obtain ⟨hchoose, rfl⟩ := liftM_eq_ok hlift
    exact ⟨carrier, hchoose, (grows_of_collection h.sound hcollection).2⟩

end Lowering

namespace LoopCode

open Lowering

variable {d : StampedDecl} {sm : StampedModule} {carriers : CarrierMap} {registry : Registry}
  {c : LoopCode}

/-- Lowered code is sound code with its yield at the end. -/
theorem exists_finish (hm : CarrierMap.ofModule sm = .ok carriers)
    (h : ofDecl d carriers registry = .ok c) :
    ∃ st v, Done ⟨carriers, registry⟩ .empty st (lookups ⟨carriers, registry⟩ d.body)
        d.body.inputUses ∧ (∃ i ∈ st.code, v ∈ i.defs) ∧
      c.instrs = (st.finish v d.body.span).code := by
  rw [ofDecl] at h
  split at h
  · cases h
  · rename_i st hst
    cases h
    obtain ⟨st₁, v, hdone, hv, rfl⟩ :=
      (lookups_spec (CarrierMap.records_ofModule hm) d.body).2 st hst
    exact ⟨st₁, v, hdone, hv, rfl⟩

/-- Whatever is lowered is valid, and no path is indexed out of range, whether lowering succeeds or
fails. -/
theorem ofDecl_balanced_and_in_range (hm : CarrierMap.ofModule sm = .ok carriers) (d : StampedDecl)
    (registry : Registry) :
    (∀ c, ofDecl d carriers registry = .ok c → c.check = .ok () ∧ Balanced c.instrs) ∧
      (Logged.lowerBody ⟨carriers, registry⟩ d.body .empty []).1 =
        lowerBody ⟨carriers, registry⟩ d.body .empty ∧
      ∀ a ∈ lookups ⟨carriers, registry⟩ d.body, a.InRange ⟨carriers, registry⟩ := by
  have hrecords := CarrierMap.records_ofModule hm
  refine ⟨fun c hc => ?_, Logged.lowerBody_fst _ d.body .empty [], fun a ha => ?_⟩
  · obtain ⟨st, v, hdone, hv, hcode⟩ := exists_finish hm hc
    have hsilent : ∀ i ∈ st.code, i.isYield = false := by
      intro i hi
      by_contra hy
      exact List.not_mem_nil (hdone.grows.silent i hi (by simpa using hy))
    have hbalanced := hdone.grows.sound.balanced_finish hsilent hv d.body.span
    rw [← hcode] at hbalanced
    exact ⟨check_eq_ok.2 hbalanced.checkInstrs_eq, hbalanced⟩
  · exact Lookup.Asked.inRange hrecords ((lookups_spec hrecords d.body).1 a ha)

/-- A mark with any axes. -/
def crossingMark (axes : List String) (dtype : DType) : Mark :=
  ⟨⟨0⟩, ⟨0⟩, 0, ⟨.ofNames axes, dtype⟩, none, .zero⟩

/-- A module that carries an axis which the inputs below do not have. -/
def crossingModule : StampedModule :=
  ⟨[⟨"other", .value, .input (crossingMark ["k"] .integer) ["c", "w"], ⟨[⟨"k"⟩], .integer⟩, 0,
    .zero⟩]⟩

/-- A sum whose operands have axes that do not fit to each other. -/
def crossing : StampedDecl where
  name := "crossing"
  kind := .value
  body := .call (crossingMark ["i"] .integer) "add"
    [.select (crossingMark ["k"] .integer) (.constant (crossingMark [] .boolean) (.boolean true))
        (.constant (crossingMark [] .integer) (.integer 1))
        (.constant (crossingMark [] .integer) (.integer 0)),
      .reduce (crossingMark ["j"] .integer) "sum" [⟨"i"⟩]
        (.input (crossingMark ["j", "i"] .integer) ["b", "y", "z"]),
      .input (crossingMark ["i"] .integer) ["a", "x"]]
  stamp := ⟨[⟨"i"⟩], .integer⟩
  topo := 0
  span := .zero

/-- The sum is lowered, with a loop over each of the collections. -/
theorem exists_crossing : ∃ carriers c, CarrierMap.ofModule crossingModule = .ok carriers ∧
    ofDecl crossing carriers .builtins = .ok c ∧
    (c.instrs.filterMap Instr.opening?).map (fun p => c.path? p.2) =
      [some ["a"], some ["c"], some ["b"], some ["b", "y"]] := by
  obtain ⟨c, hc, hloops⟩ := Except.exists_of_any
    (x := CarrierMap.ofModule crossingModule >>= fun carriers => ofDecl crossing carriers .builtins)
    (f := fun c => decide ((c.instrs.filterMap Instr.opening?).map (fun p => c.path? p.2) =
      [some ["a"], some ["c"], some ["b"], some ["b", "y"]])) (by decide +kernel)
  obtain ⟨carriers, hm, hd⟩ := Except.bind_eq_ok.1 hc
  exact ⟨carriers, c, hm, hd, of_decide_eq_true hloops⟩

theorem crossing_balanced_and_in_range :
    ∃ carriers c, CarrierMap.ofModule crossingModule = .ok carriers ∧
      ofDecl crossing carriers .builtins = .ok c ∧ c.check = .ok () ∧ Balanced c.instrs ∧
      ∀ a ∈ lookups ⟨carriers, .builtins⟩ crossing.body, a.InRange ⟨carriers, .builtins⟩ := by
  obtain ⟨carriers, c, hm, hc, -⟩ := exists_crossing
  obtain ⟨hvalid, -, hrange⟩ := ofDecl_balanced_and_in_range hm crossing .builtins
  exact ⟨carriers, c, hm, hc, (hvalid c hc).1, (hvalid c hc).2, hrange⟩

/-- The queries of a lowering are for the inputs of the body and for the loops of the code, and each
of them gets a register that stands for the path that is asked for. -/
theorem ofDecl_registers_resolve (hm : CarrierMap.ofModule sm = .ok carriers)
    (h : ofDecl d carriers registry = .ok c) :
    (lookups ⟨carriers, registry⟩ d.body).filterMap Lookup.use? = d.body.inputUses ∧
      (lookups ⟨carriers, registry⟩ d.body).filterMap (Lookup.opening? ⟨carriers, registry⟩) =
        c.instrs.filterMap Instr.opening? ∧
      ∀ a ∈ lookups ⟨carriers, registry⟩ d.body, ∃ path r st,
        a.query.path ⟨carriers, registry⟩ = .ok path ∧
          a.query.answer ⟨carriers, registry⟩ a.before = .ok (r, st) ∧
          st.code <+: c.instrs ∧ c.path? r = some path := by
  have hrecords := CarrierMap.records_ofModule hm
  obtain ⟨st, v, hdone, hv, hcode⟩ := exists_finish hm h
  obtain ⟨hsound, -, hfinish⟩ := hdone.grows.sound.finish hv d.body.span
  have hle : st.code <+: (st.finish v d.body.span).code := hfinish ▸ List.prefix_append _ _
  refine ⟨hdone.uses, ?_, fun a ha => ?_⟩
  · have hends : (st.frames.map fun f => (⟨none, .loopEnd f.id, d.body.span⟩ : Instr)).filterMap
        Instr.opening? = [] := by
      refine List.filterMap_eq_nil_iff.2 fun i hi => ?_
      obtain ⟨f, -, rfl⟩ := List.mem_map.1 hi
      rfl
    rw [hcode, hfinish, List.filterMap_append, hdone.grows.opened, List.filterMap_cons_none rfl,
      hends, List.append_nil]
    rfl
  · obtain ⟨r, st₁, hanswer, hst₁⟩ := hdone.answered a ha
    obtain ⟨path, hpath, hresolves⟩ :=
      Lookup.Asked.resolves ((lookups_spec hrecords d.body).1 a ha) hanswer
    refine ⟨path, r, st₁, hpath, hanswer, hcode ▸ hst₁.trans hle, ?_⟩
    rw [path?, route?, hcode]
    exact hresolves.mono (hst₁.trans hle) hsound.numbered

theorem crossing_registers_resolve :
    ∃ carriers c, CarrierMap.ofModule crossingModule = .ok carriers ∧
      ofDecl crossing carriers .builtins = .ok c ∧
      (c.instrs.filterMap Instr.opening?).map (fun p => c.path? p.2) =
        [some ["a"], some ["c"], some ["b"], some ["b", "y"]] ∧
      (lookups ⟨carriers, .builtins⟩ crossing.body).filterMap Lookup.use? =
        crossing.body.inputUses ∧
      (lookups ⟨carriers, .builtins⟩ crossing.body).filterMap
        (Lookup.opening? ⟨carriers, .builtins⟩) = c.instrs.filterMap Instr.opening? ∧
      ∀ a ∈ lookups ⟨carriers, .builtins⟩ crossing.body, ∃ path r st,
        a.query.path ⟨carriers, .builtins⟩ = .ok path ∧
          a.query.answer ⟨carriers, .builtins⟩ a.before = .ok (r, st) ∧
          st.code <+: c.instrs ∧ c.path? r = some path := by
  obtain ⟨carriers, c, hm, hc, hloops⟩ := exists_crossing
  exact ⟨carriers, c, hm, hc, hloops, ofDecl_registers_resolve hm hc⟩

end LoopCode
end LoopNest
