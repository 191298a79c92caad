import LoopNest.Proofs.Lowering.Module
import LoopNest.Proofs.Semantics.Emission

/-! What the code of a module yields. Each declaration yields the values of its body, one for all
that the loops over its axes reach. This holds of the code as it is lowered and of inlined code. -/
namespace LoopNest

/-- The values of a body, with their indices. -/
def StampedExpr.yields (env : Lowering.Env) (w : World) (body : StampedExpr) : Yields :=
  (Cell.reach env.carriers w.data [] [] body.axes).map fun cells =>
    (Cell.indices cells, body.meaning env w cells)

namespace Nest

variable {n : Nest} {env : Lowering.Env} {inlined : Bool} {known : String → Option StampedExpr}
  {w : World} {body : StampedExpr}

/-- A nest yields the values of its body. -/
theorem For.run {uses : List InputUse} (hm : env.carriers.Records uses)
    (hnodup : ∀ axes carrier, env.carriers.find? axes = some carrier → axes.Nodup)
    (hw : w.Faithful env known) (h : n.For env inlined known body) (hd : Distinct n.tree.instrs) :
    ∃ s, n.tree.run w .start = some s ∧ s.yields = body.yields env w := by
  have hfresh : n.tree.Fresh [] := ⟨hd.regs, hd.accs, fun r hr => nomatch hr⟩
  have hstart : Holds .start [] [] := ⟨.nil, rfl⟩
  have hinner : (n.block ++ .step n.yield .done).Fresh n.places := h.opens.fresh hfresh
  let value (cells : List Cell) := (Cell.indices cells, body.meaning env w cells)
  have hiter : ∀ cells ∈ Cell.reach env.carriers w.data [] [] body.axes, ∀ s ys,
      Holds s n.places cells → s.yields = ys →
      ∃ s', (n.block ++ .step n.yield .done).run w s = some s' ∧
        s.OnlyChanges (n.block ++ .step n.yield .done).defs n.block.declares s' ∧
        s'.yields = ys ++ [value cells] := by
    rintro cells hmem s ys hs rfl
    obtain ⟨js, -, hst, -⟩ := exists_of_forall₂ (Stack.reach_root hm w.data body.axes) hmem
    obtain ⟨s₁, h₁, hv⟩ := h.emits.runs hm hnodup hw s cells _ _ hst hs hinner.left
    have hv : s₁.regs n.value = some (body.meaning env w cells) := (List.cons.inj hv).1
    have hindices : s₁.indices = Cell.indices cells := by
      rw [Machine.indices, h₁.changes.loops, hs.loops, Cell.indices, Cell.loops, List.map_map]
      rfl
    have hstep : s₁.step w n.yield =
        some { s₁ with yields := s₁.yields ++ [value cells] } := by
      simp only [Machine.step, yield, Machine.read, hv, hindices]
      rfl
    refine ⟨{ s₁ with yields := s₁.yields ++ [value cells] }, ?_, ⟨?_, ?_, ?_⟩, ?_⟩
    · rw [Block.run_append, h₁.run]
      exact Block.run_step hstep
    · intro r hr
      refine h₁.changes.regs r fun hm => hr ?_
      rw [Block.defs, Block.instrs_append, List.flatMap_append]
      exact List.mem_append_left _ hm
    · exact h₁.changes.accs
    · exact h₁.changes.loops
    · rw [← h₁.yields]
  obtain ⟨s, hrun, -, hys⟩ := h.opens.run (fun s ys => s.yields = ys)
    (fun ys cells => ys ++ [value cells]) n.block.declares
    (fun s s' ys _ hy hs => hy.trans hs) hfresh hiter hstart rfl
  refine ⟨s, hrun, hys.trans ?_⟩
  rw [List.foldl_append_eq_append, ← List.flatMap_def, StampedExpr.yields, List.map_eq_flatMap]
  rfl

end Nest

/-- The value of a body is found at its indices. -/
theorem StampedExpr.lookup_yields {env : Lowering.Env} {w : World} {uses : List InputUse}
    (hm : env.carriers.Records uses) {body : StampedExpr} {cells : List Cell} {is : List Nat}
    (h : Stack env.carriers (Item.Fits w.data) cells body.axes is)
    (hlen : cells.length = body.axes.length) :
    (body.yields env w).reverse.lookup is = some (body.meaning env w cells) := by
  have hle : cells.length ≤ body.axes.length := Nat.le_of_eq hlen
  refine lookup_eq_some_of_forall (List.mem_reverse.2 ?_) fun v hv => ?_
  · refine List.mem_map.2 ⟨cells, h.mem_reach hm hle, ?_⟩
    rw [h.indices_eq hle]
  · obtain ⟨cells', hmem, heq⟩ := List.mem_map.1 (List.mem_reverse.1 hv)
    obtain ⟨is', -, hst, hlen'⟩ := exists_of_forall₂ (Stack.reach_root hm w.data body.axes) hmem
    have hle' : cells'.length ≤ body.axes.length := Nat.le_of_eq hlen'
    cases heq
    rw [hst.indices_eq hle'] at h
    rw [hst.unique (fun _ _ _ _ _ hf hf' => hf.eq hf') hle' h hle]

/-- The world after a declaration. -/
def World.record (w : World) (name : String) (ys : Yields) : World :=
  { w with known := (name, ys) :: w.known }

theorem World.recorded_record_of_ne (w : World) {name new : String} (h : name ≠ new) (ys : Yields) :
    (w.record new ys).recorded name = w.recorded name := by
  funext is
  unfold recorded record
  rw [List.lookup_cons, beq_false_of_ne h]

theorem World.recorded_record_self (w : World) (name : String) (ys : Yields) (is : List Nat) :
    (w.record name ys).recorded name is = ys.reverse.lookup is := by
  unfold recorded record
  rw [List.lookup_cons_self, Option.bind_some]

namespace StampedModule

/-- What declarations yield one after the other, after those that are known. -/
def valuesFrom (env : Lowering.Env) (interp : Interpretation) (data : Json)
    (known : List (String × Yields)) : List StampedDecl → List (String × Yields)
  | [] => []
  | d :: ds =>
    let ys := d.body.yields env ⟨interp, data, known⟩
    (d.name, ys) :: valuesFrom env interp data ((d.name, ys) :: known) ds

variable {env : Lowering.Env} {w : World} {done : List StampedDecl} {d : StampedDecl}

/-- The bodies refer to declarations that are done. -/
def Closed (inputs : InputTable) (done : List StampedDecl) : Prop :=
  ∀ d ∈ done, ∃ decls, d.body.Consistent inputs decls ∧
    ∀ name stamp, decls.lookup name = some stamp → ∃ d' ∈ done, d'.name = name

theorem Closed.append {inputs : InputTable} (h : Closed inputs done)
    (hd : d.body.Consistent inputs (stamps done)) : Closed inputs (done ++ [d]) := by
  intro d' hd'
  have hin : ∃ decls, d'.body.Consistent inputs decls ∧
      ∀ name stamp, decls.lookup name = some stamp → ∃ d'' ∈ done, d''.name = name := by
    rcases List.mem_append.1 hd' with hd' | hd'
    · exact h d' hd'
    · rw [List.mem_singleton.1 hd']
      exact ⟨stamps done, hd, fun name stamp hl => exists_of_lookup_stamps hl⟩
  obtain ⟨decls, hc, hnames⟩ := hin
  refine ⟨decls, hc, fun name stamp hl => ?_⟩
  obtain ⟨d'', hmem, hname⟩ := hnames name stamp hl
  exact ⟨d'', List.mem_append_left _ hmem, hname⟩

/-- What a further declaration yields is recorded faithfully. -/
theorem faithful_record {inputs : InputTable} {uses : List InputUse}
    (hm : env.carriers.Records uses) (hc : Closed inputs done)
    (hd : d.body.Consistent inputs (stamps done)) (hnew : ∀ d' ∈ done, d'.name ≠ d.name)
    (hw : w.Faithful env (bodies done)) :
    (w.record d.name (d.body.yields env w)).Faithful env (bodies (done ++ [d])) := by
  intro name body cells is hk hst hlen
  have hst : Stack env.carriers (Item.Fits w.data) cells body.axes is := hst
  have hkeep : ∀ d' ∈ done,
      (w.record d.name (d.body.yields env w)).recorded d'.name = w.recorded d'.name :=
    fun d' hd' => w.recorded_record_of_ne (hnew d' hd') _
  -- the bodies mean the same as before
  have hsame {e : StampedExpr} {decls : List (String × Stamp)} (he : e.Consistent inputs decls)
      (hnames : ∀ name stamp, decls.lookup name = some stamp → ∃ d' ∈ done, d'.name = name) :
      e.meaning env w cells = e.meaning env (w.record d.name (d.body.yields env w)) cells := by
    refine StampedExpr.meaning_congr w (w.record _ _) rfl rfl he (fun name stamp hl => ?_) cells
    obtain ⟨d', hd', rfl⟩ := hnames name stamp hl
    exact (hkeep d' hd').symm
  rcases bodies_append_eq_some hk with ⟨d', hmem, rfl, rfl, hknown⟩ | ⟨rfl, rfl⟩
  · obtain ⟨decls, hcons, hnames⟩ := hc d' hmem
    rw [hkeep d' hmem, hw d'.name d'.body cells is hknown hst hlen, hsame hcons hnames]
  · rw [w.recorded_record_self, StampedExpr.lookup_yields hm hst hlen,
      hsame hd fun name stamp hl => exists_of_lookup_stamps hl]

/-- The code of declarations yields their values. -/
theorem evaluateFrom_eq {inputs : InputTable} {uses : List InputUse}
    (hm : env.carriers.Records uses)
    (hnodup : ∀ axes carrier, env.carriers.find? axes = some carrier → axes.Nodup)
    {inlined : Bool} {ds : List StampedDecl} {cs : List LoopCode}
    (h : Codes env inlined done ds cs) (hcons : ConsistentFrom inputs (stamps done) ds)
    (hnames : ((done ++ ds).map StampedDecl.name).Nodup) (hc : Closed inputs done)
    (hw : w.Faithful env (bodies done)) :
    LoopModule.evaluateFrom w.interp w.data w.known cs =
      some (valuesFrom env w.interp w.data w.known ds) := by
  induction h generalizing w with
  | nil => rfl
  | @cons done ds d c cs n hname hn _ hinstrs hdistinct _ ih =>
    obtain ⟨hbody, hstamp, hrest⟩ := hcons
    have hys : c.yields? w = some (d.body.yields env w) := by
      rw [hinstrs] at hdistinct
      obtain ⟨s, hrun, hs⟩ := hn.run hm hnodup hw hdistinct
      simp only [LoopCode.yields?, hinstrs, hn.ofInstrs?_eq, Option.bind_eq_bind, Option.bind_some,
        hrun, hs]
      rfl
    have hnew : ∀ d' ∈ done, d'.name ≠ d.name := by
      intro d' hd' he
      rw [List.map_append, List.map_cons, List.nodup_append] at hnames
      exact hnames.2.2 d'.name (List.mem_map.2 ⟨d', hd', rfl⟩) d.name List.mem_cons_self he
    rw [List.append_cons] at hnames
    rw [← stamps_append] at hrest
    have htail := ih hrest hnames (hc.append hbody) (faithful_record hm hc hbody hnew hw)
    change LoopModule.evaluateFrom w.interp w.data ((d.name, _) :: w.known) cs = _ at htail
    have hys : c.yields? ⟨w.interp, w.data, w.known⟩ = _ := hys
    simp only [LoopModule.evaluateFrom, hys, Option.bind_eq_bind, Option.bind_some, hname, htail]
    rfl

end StampedModule

/-- No axis vector of an input repeats a token. -/
def InputTable.TokensDistinct (t : InputTable) : Prop := ∀ e ∈ t.values, e.axes.Nodup

instance (t : InputTable) : Decidable t.TokensDistinct :=
  inferInstanceAs (Decidable (∀ e ∈ t.values, e.axes.Nodup))

namespace StampedModule

variable {inputs : InputTable} {sm : StampedModule} {carriers : CarrierMap}

/-- Axes that have a carrier are a start of the axes of an input. -/
theorem Consistent.nodup_of_carrier (hc : sm.Consistent inputs) (ht : inputs.TokensDistinct)
    (hm : CarrierMap.ofModule sm = .ok carriers) {axes : Axes} {carrier : FieldPath}
    (h : carriers.find? axes = some carrier) : axes.Nodup := by
  obtain ⟨u, hu, hprefix, -⟩ := (CarrierMap.records_ofModule hm).exists_use h
  obtain ⟨d, hd, hu⟩ := List.mem_flatMap.1 hu
  obtain ⟨known, hbody, -⟩ := hc.bodies.exists_of_mem hd
  obtain ⟨entry, hfind, haxes⟩ := hbody.exists_entry u hu
  have hnodup : u.axes.Nodup := by
    obtain ⟨e, he, hentry⟩ := Option.map_eq_some_iff.1 hfind
    rw [← haxes, ← hentry]
    exact ht e.2 (List.mem_map.2 ⟨e, List.mem_of_find?_eq_some he, rfl⟩)
  exact hnodup.sublist hprefix.sublist

/-- Code of a module yields the values of its declarations. -/
theorem Consistent.evaluate_eq (hc : sm.Consistent inputs) (ht : inputs.TokensDistinct)
    (hm : CarrierMap.ofModule sm = .ok carriers) {registry : Registry} {inlined : Bool}
    {m : LoopModule} (h : Codes ⟨carriers, registry⟩ inlined [] sm.decls m.decls)
    (interp : Interpretation) (data : Json) :
    m.evaluate interp data =
      some (valuesFrom ⟨carriers, registry⟩ interp data [] sm.decls) := by
  let env : Lowering.Env := ⟨carriers, registry⟩
  have hrecords : env.carriers.Records sm.inputUses := CarrierMap.records_ofModule hm
  exact evaluateFrom_eq (w := ⟨interp, data, []⟩) hrecords
    (fun _ _ hfind => hc.nodup_of_carrier ht hm hfind) h hc.bodies hc.names
    (fun _ hd => nomatch hd) fun _ _ _ _ hk => nomatch hk

end StampedModule
end LoopNest
