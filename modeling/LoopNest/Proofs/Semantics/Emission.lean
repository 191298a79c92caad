import LoopNest.Proofs.Lowering.Nest
import LoopNest.Proofs.Semantics.Execution

/-! Emitted code computes the values of its expressions, inlined or not. -/
namespace LoopNest

/-- The code for expressions computes their values in all states that fit to the loops around. -/
def Runs (env : Lowering.Env) (w : World) (places : List (Place Reg)) (es : List StampedExpr)
    (b : Block) (rs : List Reg) : Prop :=
  ∀ s cells axes is, Stack env.carriers (Item.Fits w.data) cells axes is → Holds s places cells →
    b.Fresh places →
    ∃ s', Computes w b s s' ∧ rs.map s'.regs = es.map fun e => some (e.meaning env w cells)

namespace Runs

variable {env : Lowering.Env} {w : World} {places : List (Place Reg)}

/-- One expression after the other. -/
theorem cons {e : StampedExpr} {es : List StampedExpr} {b b' : Block} {r : Reg} {rs : List Reg}
    (h : Runs env w places [e] b [r]) (hr : r ∈ b.defs ∨ r ∈ Place.elements places)
    (h' : Runs env w places es b' rs) : Runs env w places (e :: es) (b ++ b') (r :: rs) := by
  intro s cells axes is hst hs hfresh
  obtain ⟨s₁, h₁, hv₁⟩ := h s cells axes is hst hs hfresh.left
  have hs₁ := hs.of_onlyChanges h₁.changes hfresh.left.outside
  obtain ⟨s₂, h₂, hv₂⟩ := h' s₁ cells axes is hst hs₁ hfresh.right
  refine ⟨s₂, h₁.append h₂, ?_⟩
  have hkeep : s₂.regs r = s₁.regs r := h₂.changes.regs r (hfresh.not_mem_right hr)
  have hone : s₁.regs r = some (e.meaning env w cells) := (List.cons.inj hv₁).1
  rw [List.map_cons, List.map_cons, hkeep, hone, hv₂]

/-- The values that were computed, as an operation reads them. -/
theorem read_eq {s : Machine} {es : List StampedExpr} {rs : List Reg} {cells : List Cell}
    (h : rs.map s.regs = es.map fun e => some (e.meaning env w cells)) :
    rs.map s.read = StampedExpr.meanings env w es cells := by
  rw [StampedExpr.meanings_eq]
  have hread := congrArg (List.map fun v : Option Json => v.getD .null) h
  rw [List.map_map, List.map_map] at hread
  exact hread

/-- An operation on values that were computed before. -/
theorem put {e : StampedExpr} {es : List StampedExpr} {b : Block} {r : Reg} {rs : List Reg}
    {op : Op} {span : Span} (h : Runs env w places es b rs)
    (hop : ∀ (s : Machine) cells, (rs.map s.regs = es.map fun e => some (e.meaning env w cells)) →
      s.step w ⟨some r, op, span⟩ = some (s.put (some r) (e.meaning env w cells))) :
    Runs env w places [e] (b ++ .step ⟨some r, op, span⟩ .done) [r] := by
  intro s cells axes is hst hs hfresh
  obtain ⟨s₁, h₁, hv₁⟩ := h s cells axes is hst hs hfresh.left
  refine ⟨_, h₁.append (.put (hop s₁ cells hv₁)), ?_⟩
  rw [List.map_singleton, List.map_singleton, Machine.regs_put_self]

theorem nil : Runs env w places [] .done [] := fun s _ _ _ _ _ _ => ⟨s, .done w s, rfl⟩

theorem constant {m : Mark} {v : Literal} {r : Reg} {span : Span} :
    Runs env w places [.constant m v] (.step ⟨some r, .constant v m.stamp.dtype, span⟩ .done)
      [r] := by
  refine put (b := .done) nil fun s cells _ => ?_
  rw [StampedExpr.meaning]
  rfl

theorem call {m : Mark} {func : String} {args : List StampedExpr} {b : Block} {rs : List Reg}
    {r : Reg} {span : Span} (h : Runs env w places args b rs) :
    Runs env w places [.call m func args]
      (b ++ .step ⟨some r, .kernelCall func rs m.stamp.dtype, span⟩ .done) [r] := by
  refine h.put fun s cells hv => ?_
  rw [StampedExpr.meaning, ← read_eq hv]
  rfl

theorem tuple {m : Mark} {elems : List StampedExpr} {b : Block} {rs : List Reg} {r : Reg}
    {span : Span} (h : Runs env w places elems b rs) :
    Runs env w places [.tuple m elems]
      (b ++ .step ⟨some r, .makeTuple rs m.stamp.dtype, span⟩ .done) [r] := by
  refine h.put fun s cells hv => ?_
  rw [StampedExpr.meaning, ← read_eq hv]
  rfl

theorem select {m : Mark} {c t f : StampedExpr} {b : Block} {rc rt rf r : Reg} {span : Span}
    (h : Runs env w places [c, t, f] b [rc, rt, rf]) :
    Runs env w places [.select m c t f]
      (b ++ .step ⟨some r, .select rc rt rf m.stamp.dtype, span⟩ .done) [r] := by
  refine h.put fun s cells hv => ?_
  have hread := read_eq hv
  simp only [List.map_cons, List.map_nil, StampedExpr.meanings, List.cons.injEq, and_true] at hread
  rw [StampedExpr.meaning, ← hread.1, ← hread.2.1, ← hread.2.2]
  rfl

theorem input {m : Mark} {dtype : Option DType} {path : FieldPath} {is : List Instr} {r : Reg}
    (h : Loads dtype places path.startsWith path is r) :
    Runs env w places [.input m path] (.steps is .done) [r] := by
  intro s cells axes trail hst hs hfresh
  obtain ⟨s', hs', -, hr⟩ := h.run (w := w) hs
  refine ⟨s', hs', ?_⟩
  rw [List.map_singleton, List.map_singleton, hr, StampedExpr.meaning]

variable {known : String → Option StampedExpr}

theorem load (hw : w.Faithful env known)
    (hnodup : ∀ axes carrier, env.carriers.find? axes = some carrier → axes.Nodup) {m : Mark}
    {name : String} {body : StampedExpr} (hk : known name = some body)
    (hx : body.axes = m.stamp.axes) (ha : m.stamp.axes <+: Place.logicalOf places) {r : Reg}
    {span : Span} :
    Runs env w places [.ref m name]
      (.step ⟨some r, .loadDeclaration name m.stamp.axes m.stamp.dtype, span⟩ .done) [r] := by
  intro s cells axes is hst hs hfresh
  rw [hs.logicalOf_eq, hst.logicalOf_eq, ← hx] at ha
  obtain ⟨v, hv⟩ := hst.exists_recorded hw hnodup hk ha
  have hstep : s.step w ⟨some r, .loadDeclaration name m.stamp.axes m.stamp.dtype, span⟩ =
      some (s.put (some r) v) := by
    obtain ⟨indices, hi, hrec⟩ := Option.bind_eq_some_iff.1 hv
    simp only [Machine.step, hs.loops, ← hx, hi, Option.bind_eq_bind, Option.bind_some, hrec]
    rfl
  refine ⟨_, .put hstep, ?_⟩
  rw [List.map_singleton, List.map_singleton, Machine.regs_put_self, StampedExpr.meaning, ← hx, hv,
    Option.getD_some]

theorem compute (hw : w.Faithful env known)
    (hnodup : ∀ axes carrier, env.carriers.find? axes = some carrier → axes.Nodup) {m : Mark}
    {name : String} {body : StampedExpr} (hk : known name = some body)
    (hx : body.axes = m.stamp.axes) (ha : m.stamp.axes <+: Place.logicalOf places)
    (hlen : places.length = m.stamp.axes.length) {b : Block} {r : Reg}
    (h : Runs env w places [body] b [r]) : Runs env w places [.ref m name] b [r] := by
  intro s cells axes is hst hs hfresh
  rw [hs.logicalOf_eq, hst.logicalOf_eq, ← hx] at ha
  rw [hs.length_eq, ← hx] at hlen
  have hrec := hst.recorded_eq hw hnodup hk ha hlen
  obtain ⟨s', hs', hv⟩ := h s cells axes is hst hs hfresh
  refine ⟨s', hs', ?_⟩
  rw [hv, List.map_singleton, List.map_singleton, StampedExpr.meaning, ← hx, hrec, Option.getD_some]

/-- The argument of a reduction is added to the accumulator. -/
theorem accumulate {arg : StampedExpr} {b : Block} {v : Reg} {acc : AccId} {op : String}
    {span : Span}
    (h : Runs env w places [arg] b [v]) (hacc : acc ∉ b.declares) {s : Machine} {cells : List Cell}
    {axes : Axes} {is : List Nat} (hst : Stack env.carriers (Item.Fits w.data) cells axes is)
    (hs : Holds s places cells) (hfresh : b.Fresh places) {total : Json}
    (ht : s.accs acc = some total) :
    ∃ s', (b ++ .step ⟨none, .accumulate acc op v, span⟩ .done).run w s = some s' ∧
      s.OnlyChanges (b ++ .step ⟨none, .accumulate acc op v, span⟩ .done).defs
        (acc :: b.declares) s' ∧
      s'.accs acc = some (w.interp.reduce op total (arg.meaning env w cells)) ∧
      s'.yields = s.yields := by
  obtain ⟨s₁, h₁, hv⟩ := h s cells axes is hst hs hfresh
  have hv : s₁.regs v = some (arg.meaning env w cells) := (List.cons.inj hv).1
  have ht₁ : s₁.accs acc = some total := (h₁.changes.accs acc hacc).trans ht
  let sum := w.interp.reduce op total (arg.meaning env w cells)
  have hstep : s₁.step w ⟨none, .accumulate acc op v, span⟩ =
      some { s₁ with accs := Function.update s₁.accs acc (some sum) } := by
    simp only [Machine.step, ht₁, Machine.read, hv]
    rfl
  refine ⟨{ s₁ with accs := Function.update s₁.accs acc (some sum) }, ?_, ⟨?_, ?_, ?_⟩, ?_, ?_⟩
  · rw [Block.run_append, h₁.run]
    exact Block.run_step hstep
  · intro q hq
    refine h₁.changes.regs q fun hm => hq ?_
    rw [Block.defs, Block.instrs_append, List.flatMap_append]
    exact List.mem_append_left _ hm
  · intro a ha
    simp only [List.mem_cons, not_or] at ha
    exact (Function.update_of_ne ha.1 _ _).trans (h₁.changes.accs a ha.2)
  · exact h₁.changes.loops
  · exact Function.update_self _ _ _
  · exact h₁.yields

/-- A reduction adds up the values of its argument over all that its loops reach. -/
theorem reduce {uses : List InputUse} (hm : env.carriers.Records uses) {inner : List (Place Reg)}
    {m : Mark} {op : String} {reduced : Axes} {arg : StampedExpr} {os : List Opening} {b : Block}
    {v r : Reg} {acc : AccId} {start : Literal} {s₁ s₂ s₃ : Span}
    (ha : m.stamp.axes <+: Place.logicalOf places) (hr : reduced ≠ [])
    (hi : Lowering.identity env op m.stamp.dtype m.span = .ok start)
    (ho : Opens env.carriers places m.stamp.axes reduced os inner)
    (h : Runs env w inner [arg] b [v]) :
    Runs env w places [.reduce m op reduced arg]
      (.step ⟨none, .declareAccumulator acc op start m.stamp.dtype, s₁⟩
        (Opening.wrap os (b ++ .step ⟨none, .accumulate acc op v, s₂⟩ .done) ++
          .step ⟨some r, .loadAccumulator acc m.stamp.dtype, s₃⟩ .done)) [r] := by
  intro s cells axes is hst hs hfresh
  set body : Block := b ++ .step ⟨none, .accumulate acc op v, s₂⟩ .done with hbody
  let decl : Block := .step ⟨none, .declareAccumulator acc op start m.stamp.dtype, s₁⟩ .done
  let last : Block := .step ⟨some r, .loadAccumulator acc m.stamp.dtype, s₃⟩ .done
  change (decl ++ (Opening.wrap os body ++ last)).Fresh places at hfresh
  rw [hs.logicalOf_eq, hst.logicalOf_eq] at ha
  -- the accumulator is new to the argument
  have hsub : b.declares ⊆ (Opening.wrap os body).declares := by
    intro a hmem
    simp only [Block.declares, Opening.instrs_wrap, hbody, Block.instrs_append, List.flatMap_append]
    exact List.mem_append_right _ (List.mem_append_left _ (List.mem_append_left _ hmem))
  have hacc : acc ∉ (Opening.wrap os body).declares := by
    have hnodup : (acc :: (Opening.wrap os body ++ last).declares).Nodup := hfresh.accs
    rw [Block.declares, Block.instrs_append, List.flatMap_append] at hnodup
    exact fun hmem => (List.nodup_cons.1 hnodup).1 (List.mem_append_left _ hmem)
  let t₀ : Machine := { s with accs := Function.update s.accs acc (some start.toJson) }
  have hdecl : Computes w decl s t₀ := by
    refine ⟨rfl, ⟨fun _ _ => rfl, fun a hne => ?_, rfl⟩, rfl⟩
    exact Function.update_of_ne (fun he => hne (by simp [decl, Instr.declares, he])) _ _
  have ht₀ : Holds t₀ places cells := hs.of_onlyChanges hdecl.changes hfresh.left.outside
  have hiter : ∀ cells' ∈ Cell.reach env.carriers w.data cells m.stamp.axes reduced, ∀ t x,
      Holds t inner cells' → t.accs acc = some x ∧ t.yields = s.yields →
      ∃ t', body.run w t = some t' ∧ t.OnlyChanges body.defs (acc :: b.declares) t' ∧
        t'.accs acc = some (w.interp.reduce op x (arg.meaning env w cells')) ∧
        t'.yields = s.yields := by
    rintro cells' hmem t x ht ⟨hx, hy⟩
    have hreach := hst.reach_tuples hm ha fun hnil => absurd hnil hr
    obtain ⟨js, -, hst', -⟩ := exists_of_forall₂ hreach hmem
    obtain ⟨t', hrun, hch, hsum, hy'⟩ := h.accumulate (fun hmem => hacc (hsub hmem)) hst' ht
      (ho.fresh hfresh.right.left).left hx
    exact ⟨t', hrun, hch, hsum, hy'.trans hy⟩
  obtain ⟨t₁, hrun, hchanges, htotal, hyields⟩ := ho.run
    (fun t x => t.accs acc = some x ∧ t.yields = s.yields)
    (fun total cells' => w.interp.reduce op total (arg.meaning env w cells')) (acc :: b.declares)
    (fun t t' x haccs hyields hx => ⟨by rw [haccs]; exact hx.1, hyields.trans hx.2⟩)
    hfresh.right.left hiter ht₀ ⟨Function.update_self _ _ _, rfl⟩
  have hstart : StampedExpr.startValue env m op = start.toJson := by
    rw [StampedExpr.startValue, hi]
  have hload : t₁.step w ⟨some r, .loadAccumulator acc m.stamp.dtype, s₃⟩ =
      some (t₁.put (some r) (StampedExpr.meaning env w (.reduce m op reduced arg) cells)) := by
    rw [StampedExpr.meaning, hstart]
    simp only [Machine.step, htotal]
    rfl
  have hput := Computes.put hload
  refine ⟨t₁.put (some r) (StampedExpr.meaning env w (.reduce m op reduced arg) cells),
    ⟨?_, ?_, hyields⟩, by rw [List.map_singleton, List.map_singleton, Machine.regs_put_self]⟩
  · change (decl ++ (Opening.wrap os body ++ last)).run w s = _
    rw [Block.run_append, hdecl.run, Option.bind_some, Block.run_append, hrun, Option.bind_some,
      hput.run]
  · change s.OnlyChanges (decl ++ (Opening.wrap os body ++ last)).defs
      (decl ++ (Opening.wrap os body ++ last)).declares _
    simp only [Block.defs, Block.declares, Block.instrs_append, List.flatMap_append]
    refine ((hdecl.changes.mono ?_ ?_).trans (hchanges.mono ?_ ?_)).trans (hput.changes.mono ?_ ?_)
    · exact List.subset_append_left _ _
    · exact List.subset_append_left _ _
    · exact List.subset_append_of_subset_right _ (List.subset_append_left _ _)
    · refine List.cons_subset.2 ⟨List.mem_append_left _ List.mem_cons_self, ?_⟩
      exact List.subset_append_of_subset_right _ (List.subset_append_of_subset_left _ hsub)
    · exact List.subset_append_of_subset_right _ (List.subset_append_right _ _)
    · exact List.subset_append_of_subset_right _ (List.subset_append_right _ _)

end Runs

/-- Emitted code computes the values of its expressions. -/
theorem Emits.runs {env : Lowering.Env} {inlined : Bool} {known : String → Option StampedExpr}
    {w : World} {uses : List InputUse} (hm : env.carriers.Records uses)
    (hnodup : ∀ axes carrier, env.carriers.find? axes = some carrier → axes.Nodup)
    (hw : w.Faithful env known) {places : List (Place Reg)} {es : List StampedExpr} {b : Block}
    {rs : List Reg} {refs : List Reference} (h : Emits env inlined known places es b rs refs) :
    Runs env w places es b rs := by
  induction h with
  | nil => exact .nil
  | constant _ ih => exact Runs.constant.cons (.inl List.mem_cons_self) ih
  | @input places m path es b is r rs refs hl _ ih =>
    have hsplit : Block.steps is b = Block.steps is .done ++ b := by
      rw [Block.steps_append]
      rfl
    rw [hsplit]
    refine (Runs.input hl).cons ?_ ih
    rw [Block.defs, Block.instrs_steps, Block.instrs_done, List.append_nil]
    exact hl.result_mem
  | load hk hx ha _ ih => exact (Runs.load hw hnodup hk hx ha).cons (.inl List.mem_cons_self) ih
  | compute hi hk hx ha hn hbody _ ih₁ ih₂ =>
    exact (ih₁.compute hw hnodup hk hx ha hn).cons (hbody.results_mem _ List.mem_cons_self) ih₂
  | call _ _ ih₁ ih₂ =>
    rw [Block.append_step]
    exact ih₁.call.cons (.inl (by simp [Instr.defs])) ih₂
  | tuple _ _ ih₁ ih₂ =>
    rw [Block.append_step]
    exact ih₁.tuple.cons (.inl (by simp [Instr.defs])) ih₂
  | select _ _ ih₁ ih₂ =>
    rw [Block.append_step]
    exact ih₁.select.cons (.inl (by simp [Instr.defs])) ih₂
  | reduce ha hx hr hi ho _ _ ih₁ ih₂ =>
    rw [Block.append_step]
    exact (ih₁.reduce hm ha hr hi ho).cons (.inl (by simp [Instr.defs])) ih₂

end LoopNest
