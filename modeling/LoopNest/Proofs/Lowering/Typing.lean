import LoopNest.Proofs.Code.Typing
import LoopNest.Proofs.Lowering.Followed
import LoopNest.Proofs.Lowering.Module

/-! Emitted code is well typed. Registers of values have the types of their expressions, and the
elements of loops stand for the carriers that the loops run over. -/
namespace LoopNest

/-- The element of a loop in code stands for its carrier. -/
structure Place.Located (c : LoopCode) (p : Place Reg) : Prop where
  path : c.path? p.element = some p.carrier
  unwritten : ∃ i ∈ c.instrs, p.element ∈ i.defs ∧ i.op.dtype? = none

section Loads

variable {c : LoopCode} {dtype : Option DType} {base r : Reg} {keys : FieldPath} {is : List Instr}

/-- The last register of a walk has the type, unless the walk stays where it is. -/
theorem Walks.last_eq (h : Walks dtype base keys is r) :
    (keys = [] ∧ r = base) ∨ ∃ i ∈ is, r ∈ i.defs ∧ i.op.dtype? = dtype := by
  induction h with
  | stay => exact .inl ⟨rfl, rfl⟩
  | load _ ih =>
    rcases ih with ⟨rfl, rfl⟩ | ⟨i, hi, hr, ht⟩
    · exact .inr ⟨_, List.mem_cons_self, List.mem_cons_self, by simp [Op.dtype?]⟩
    · exact .inr ⟨i, List.mem_cons_of_mem _ hi, hr, ht⟩

variable (hf : LoopCode.Followable c.instrs)
include hf

variable {inputs : InputTable} {registry : Registry} {m : LoopModule}

theorem Walks.wellTyped (h : Walks dtype base keys is r) (hi : is ⊆ c.instrs) {path : FieldPath}
    (hb : c.path? base = some path)
    (ht : ∀ t ∈ dtype, (inputs.find? (path ++ keys)).map InputEntry.dtype = some t) :
    ∀ i ∈ is, i.WellTyped inputs registry m c := by
  induction h generalizing path with
  | stay => exact List.forall_mem_nil _
  | @load base r last key keys is span _ ih =>
    obtain ⟨hload, hrest⟩ := List.cons_subset.1 hi
    have hr := hf.path?_loadField hload
    rw [hb] at hr
    rw [List.append_cons] at ht
    refine List.forall_mem_cons.2 ⟨?_, ih hrest hr ht⟩
    by_cases hk : keys = []
    · rw [if_pos hk]
      rw [hk, List.append_nil] at ht
      cases dtype with
      | none => trivial
      | some t => exact (LoopCode.inputType?_of_path hr).trans (ht t rfl)
    · rw [if_neg hk]
      trivial

variable {places : List (Place Reg)} {test : FieldPath → Bool} {path : FieldPath}

/-- What is loaded stands for the path. -/
theorem Loads.path?_eq (h : Loads dtype places test path is r) (hi : is ⊆ c.instrs)
    (hp : ∀ p ∈ places, p.Located c) (htest : ∀ q, test q = true → q <+: path) :
    c.path? r = some path := by
  rcases h.route?_eq hf hi with ⟨p, hfind, hroute⟩ | ⟨-, hroute⟩
  · obtain ⟨hmem, hpass⟩ := Place.of_find?_eq_some hfind
    obtain ⟨hops, hbase, hcarrier⟩ := Option.map_eq_some_iff.1 (hp p hmem).path
    rw [LoopCode.path?, hroute, hbase, Option.map_some, Option.map_some, List.filterMap_append,
      hcarrier, Hop.filterMap_key?_map_field, List.prefix_iff_eq_append.1 (htest _ hpass)]
  · rw [LoopCode.path?, hroute, Option.map_some, Hop.filterMap_key?_map_field]

theorem Loads.wellTyped (h : Loads dtype places test path is r) (hi : is ⊆ c.instrs)
    (hp : ∀ p ∈ places, p.Located c) (htest : ∀ q, test q = true → q <+: path)
    (ht : ∀ t ∈ dtype, (inputs.find? path).map InputEntry.dtype = some t) :
    ∀ i ∈ is, i.WellTyped inputs registry m c := by
  cases h with
  | place hfind hw =>
    obtain ⟨hmem, hpass⟩ := Place.of_find?_eq_some hfind
    refine hw.wellTyped hf hi (hp _ hmem).path ?_
    rwa [List.prefix_iff_eq_append.1 (htest _ hpass)]
  | root _ hw =>
    obtain ⟨hload, hrest⟩ := List.cons_subset.1 hi
    exact List.forall_mem_cons.2 ⟨trivial, hw.wellTyped hf hrest (hf.path?_loadInput hload) ht⟩

/-- An input that is loaded has its declared type, whether it is written on the last load or not. -/
theorem Loads.dtype?_eq {t : DType} (h : Loads (some t) places test path is r)
    (hi : is ⊆ c.instrs) (hp : ∀ p ∈ places, p.Located c)
    (htest : ∀ q, test q = true → q <+: path)
    (ht : (inputs.find? path).map InputEntry.dtype = some t) : c.dtype? inputs r = some t := by
  have hpath := h.path?_eq hf hi hp htest
  -- where the path ends at an open loop or at the root, nothing is loaded that has a type
  have hdefined : ∃ i ∈ c.instrs, r ∈ i.defs ∧ (i.op.dtype? = none ∨ i.op.dtype? = some t) := by
    cases h with
    | place hfind hw =>
      rcases hw.last_eq with ⟨-, rfl⟩ | ⟨i, hmem, hr, ht⟩
      · obtain ⟨i, hmem, hr, hnone⟩ := (hp _ (Place.of_find?_eq_some hfind).1).unwritten
        exact ⟨i, hmem, hr, .inl hnone⟩
      · exact ⟨i, hi hmem, hr, .inr ht⟩
    | root _ hw =>
      obtain ⟨hload, hrest⟩ := List.cons_subset.1 hi
      rcases hw.last_eq with ⟨-, rfl⟩ | ⟨i, hmem, hr, ht⟩
      · exact ⟨_, hload, List.mem_cons_self, .inl rfl⟩
      · exact ⟨i, hrest hmem, hr, .inr ht⟩
  obtain ⟨i, hmem, hr, hnone | hsome⟩ := hdefined
  · rw [LoopCode.dtype?_of_unwritten hf.nodup hmem hr hnone, LoopCode.inputType?_of_path hpath, ht]
  · exact LoopCode.dtype?_of_written hf.nodup hmem hr hsome

/-- Loops that are opened stand for their carriers. -/
theorem Opens.located {carriers : CarrierMap} {inner : List (Place Reg)} {axes rest : Axes}
    {os : List Opening} (h : Opens carriers places axes rest os inner)
    (hi : Opening.heads os ⊆ c.instrs) (hp : ∀ p ∈ places, p.Located c) :
    (∀ p ∈ inner, p.Located c) ∧ ∀ i ∈ Opening.heads os, i.WellTyped inputs registry m c := by
  induction h with
  | nil => exact ⟨hp, List.forall_mem_nil _⟩
  | @cons places inner axes rest a carrier o os _ _ hl _ ih =>
    rw [Opening.heads_cons] at hi ⊢
    obtain ⟨hloads, hstart⟩ := List.append_subset.1 hi
    obtain ⟨hstart, hrest⟩ := List.cons_subset.1 hstart
    have htest : ∀ q, carrier.inside q = true → q <+: carrier := fun q hq =>
      (FieldPath.startsWith_iff _ _).1 (Bool.and_eq_true_iff.1 hq).2
    have hpath : c.path? o.element = some carrier :=
      (hf.path?_element hstart).trans (hl.path?_eq hf hloads hp htest)
    obtain ⟨hinner, hcode⟩ := ih hrest
      (List.forall_mem_cons.2 ⟨⟨hpath, o.start, hstart, List.mem_cons_self, rfl⟩, hp⟩)
    refine ⟨hinner, List.forall_mem_append.2 ⟨?_, List.forall_mem_cons.2 ⟨trivial, hcode⟩⟩⟩
    exact hl.wellTyped hf hloads hp htest fun t ht => nomatch ht

end Loads

theorem Opening.tails_wellTyped {inputs : InputTable} {registry : Registry} {m : LoopModule}
    {c : LoopCode} (os : List Opening) : ∀ i ∈ tails os, i.WellTyped inputs registry m c := by
  intro i hi
  obtain ⟨o, -, rfl⟩ := List.mem_map.1 (List.mem_reverse.1 hi)
  trivial

/-- Well typed code for values of these types. -/
structure Block.WellTyped (inputs : InputTable) (registry : Registry) (m : LoopModule)
    (c : LoopCode) (b : Block) (rs : List Reg) (types : List DType) : Prop where
  code : ∀ i ∈ b.instrs, i.WellTyped inputs registry m c
  values : c.dtypes? inputs rs = some types

namespace Block.WellTyped

variable {inputs : InputTable} {registry : Registry} {m : LoopModule} {c : LoopCode}

theorem done : Block.done.WellTyped inputs registry m c [] [] := ⟨List.forall_mem_nil _, rfl⟩

/-- An instruction that reads values and is followed by the code for others. -/
theorem put (hf : LoopCode.Followable c.instrs) {b₁ b₂ : Block} {r : Reg} {op : Op} {span : Span}
    {rs : List Reg} {t : DType} {types : List DType}
    (h₁ : ∀ i ∈ b₁.instrs, i.WellTyped inputs registry m c)
    (hi : Instr.WellTyped inputs registry m c ⟨some r, op, span⟩) (ht : op.dtype? = some t)
    (hmem : ⟨some r, op, span⟩ ∈ c.instrs) (h₂ : b₂.WellTyped inputs registry m c rs types) :
    (b₁ ++ .step ⟨some r, op, span⟩ b₂).WellTyped inputs registry m c (r :: rs) (t :: types) := by
  refine ⟨?_, LoopCode.dtypes?_cons.2 ⟨?_, h₂.values⟩⟩
  · rw [Block.instrs_append]
    exact List.forall_mem_append.2 ⟨h₁, List.forall_mem_cons.2 ⟨hi, h₂.code⟩⟩
  · exact LoopCode.dtype?_of_written hf.nodup hmem List.mem_cons_self ht

/-- The code for a value is followed by the code for others. -/
theorem append {b₁ b₂ : Block} {r : Reg} {rs : List Reg} {t : DType} {types : List DType}
    (h₁ : b₁.WellTyped inputs registry m c [r] [t])
    (h₂ : b₂.WellTyped inputs registry m c rs types) :
    (b₁ ++ b₂).WellTyped inputs registry m c (r :: rs) (t :: types) := by
  refine ⟨?_, LoopCode.dtypes?_cons.2 ⟨(LoopCode.dtypes?_cons.1 h₁.values).1, h₂.values⟩⟩
  rw [Block.instrs_append]
  exact List.forall_mem_append.2 ⟨h₁.code, h₂.code⟩

/-- The loads of an input, inside of located loops. -/
theorem input (hf : LoopCode.Followable c.instrs) {places : List (Place Reg)}
    (hp : ∀ p ∈ places, p.Located c) {path : FieldPath} {is : List Instr} {r : Reg} {t : DType}
    (hl : Loads (some t) places path.startsWith path is r) (hi : is ⊆ c.instrs)
    (ht : (inputs.find? path).map InputEntry.dtype = some t) :
    (Block.steps is .done).WellTyped inputs registry m c [r] [t] := by
  have htest : ∀ q, path.startsWith q = true → q <+: path := fun q hq =>
    (FieldPath.startsWith_iff _ _).1 hq
  refine ⟨?_, LoopCode.dtypes?_cons.2 ⟨hl.dtype?_eq hf hi hp htest ht, rfl⟩⟩
  rw [Block.instrs_steps, Block.instrs_done, List.append_nil]
  refine hl.wellTyped hf hi hp htest fun t' ht' => ?_
  cases ht'
  exact ht

/-- A reduction, with the code for what it reduces inside of its loops. -/
theorem reduce (ha : (c.instrs.flatMap Instr.declares).Nodup) {os : List Opening} {b : Block}
    {acc : AccId} {op : String} {start : Literal} {v : Reg} {t dtype : DType} {s₁ : Span}
    (hdeclare : ⟨none, .declareAccumulator acc op start dtype, s₁⟩ ∈ c.instrs)
    (hstart : start.dtype = dtype) (ht : registry.resultType? op [t] = some dtype)
    (hos : ∀ i ∈ Opening.heads os, i.WellTyped inputs registry m c)
    (hb : b.WellTyped inputs registry m c [v] [t]) (s₂ : Span) :
    ∀ i ∈ (Block.step ⟨none, .declareAccumulator acc op start dtype, s₁⟩
      (Opening.wrap os (b ++ .step ⟨none, .accumulate acc op v, s₂⟩ .done))).instrs,
      i.WellTyped inputs registry m c := by
  have hfeed : Instr.WellTyped inputs registry m c ⟨none, .accumulate acc op v, s₂⟩ := by
    refine ⟨dtype, LoopCode.accumulator?_eq ha hdeclare, ?_⟩
    rw [hb.values, Option.bind_some, ht]
  rw [Block.instrs_step, Opening.instrs_wrap, Block.instrs_append]
  refine List.forall_mem_cons.2 ⟨hstart, List.forall_mem_append.2 ⟨hos, ?_⟩⟩
  refine List.forall_mem_append.2 ⟨List.forall_mem_append.2 ⟨hb.code, ?_⟩,
    Opening.tails_wellTyped os⟩
  exact List.forall_mem_singleton.2 hfeed

end Block.WellTyped

/-- A declaration that is known by its body: the body is typed, and declaration and code have its
axes and its type. -/
structure StampedExpr.Declared (inputs : InputTable) (registry : Registry)
    (decls : List (String × Stamp)) (m : LoopModule) (name : String) (body : StampedExpr) :
    Prop where
  typed : body.Typed inputs registry decls
  stamp : decls.lookup name = some body.note.stamp
  code : m.signature? name = some (body.axes, body.dtype)

/-- Emitted code is well typed, and its values have the types of the expressions. -/
theorem Emits.wellTyped {env : Lowering.Env} {inlined : Bool}
    {known : String → Option StampedExpr} {inputs : InputTable} {decls : List (String × Stamp)}
    {m : LoopModule}
    (hk : ∀ name body, known name = some body → body.Declared inputs env.registry decls m name)
    {c : LoopCode} (hf : LoopCode.Followable c.instrs)
    (ha : (c.instrs.flatMap Instr.declares).Nodup) {places : List (Place Reg)}
    {es : List StampedExpr} {b : Block} {rs : List Reg} {refs : List Reference}
    (h : Emits env inlined known places es b rs refs) (hb : b.instrs ⊆ c.instrs)
    (hp : ∀ p ∈ places, p.Located c) (ht : ∀ e ∈ es, e.Typed inputs env.registry decls) :
    b.WellTyped inputs env.registry m c rs (es.map StampedExpr.dtype) := by
  induction h with
  | nil => exact .done
  | constant _ ih =>
    obtain ⟨hi, hb⟩ := List.cons_subset.1 hb
    obtain ⟨he, ht⟩ := List.forall_mem_cons.1 ht
    cases he with
    | constant hv => exact .put hf Block.WellTyped.done.code hv.symm rfl hi (ih hb hp ht)
  | @input places mark path es b is r rs refs hl _ ih =>
    rw [Block.instrs_steps, List.append_subset] at hb
    obtain ⟨he, ht⟩ := List.forall_mem_cons.1 ht
    cases he with
    | input hfind htype =>
      have hdtype : (inputs.find? path).map InputEntry.dtype = some mark.stamp.dtype := by
        rw [hfind, Option.map_some, htype]
      have hall := (Block.WellTyped.input hf hp hl hb.1 hdtype).append (ih hb.2 hp ht)
      rwa [Block.steps_append] at hall
  | load hname hx _ _ ih =>
    obtain ⟨hi, hb⟩ := List.cons_subset.1 hb
    obtain ⟨he, ht⟩ := List.forall_mem_cons.1 ht
    have hbody := hk _ _ hname
    cases he with
    | ref hlookup htype =>
      cases hbody.stamp.symm.trans hlookup
      refine .put hf Block.WellTyped.done.code ?_ rfl hi (ih hb hp ht)
      exact hbody.code.trans (by rw [hx, StampedExpr.dtype, htype])
  | compute _ hname _ _ _ _ _ ihbody ih =>
    -- the code of the body stands in place of the load, and its value has the declared type
    rw [Block.instrs_append, List.append_subset] at hb
    obtain ⟨he, ht⟩ := List.forall_mem_cons.1 ht
    have hbody := hk _ _ hname
    have hfirst := ihbody hb.1 hp (List.forall_mem_singleton.2 hbody.typed)
    cases he with
    | ref hlookup htype =>
      cases hbody.stamp.symm.trans hlookup
      rw [List.map_cons, StampedExpr.dtype, Expr.note, ← htype]
      exact hfirst.append (ih hb.2 hp ht)
  | call _ _ ihargs ih =>
    rw [Block.instrs_append, List.append_subset] at hb
    obtain ⟨hi, hb₂⟩ := List.cons_subset.1 hb.2
    obtain ⟨he, ht⟩ := List.forall_mem_cons.1 ht
    cases he with
    | call hfind htype hargs =>
      have hfirst := ihargs hb.1 hp hargs
      refine .put hf hfirst.code ?_ rfl hi (ih hb₂ hp ht)
      change (c.dtypes? inputs _).bind _ = _
      rw [hfirst.values, Option.bind_some, Registry.resultType?, hfind, Option.bind_some, htype]
  | tuple _ _ ihelems ih =>
    rw [Block.instrs_append, List.append_subset] at hb
    obtain ⟨hi, hb₂⟩ := List.cons_subset.1 hb.2
    obtain ⟨he, ht⟩ := List.forall_mem_cons.1 ht
    cases he with
    | tuple htype helems =>
      have hfirst := ihelems hb.1 hp helems
      refine .put hf hfirst.code ?_ rfl hi (ih hb₂ hp ht)
      change (c.dtypes? inputs _).map _ = _
      rw [hfirst.values, Option.map_some, htype]
  | select _ _ ihparts ih =>
    rw [Block.instrs_append, List.append_subset] at hb
    obtain ⟨hi, hb₂⟩ := List.cons_subset.1 hb.2
    obtain ⟨he, ht⟩ := List.forall_mem_cons.1 ht
    cases he with
    | select hbool htype hcond htrue hfalse =>
      have hfirst := ihparts hb.1 hp (by simp [hcond, htrue, hfalse])
      obtain ⟨hc, hvalues⟩ := LoopCode.dtypes?_cons.1 hfirst.values
      obtain ⟨ht', hvalues⟩ := LoopCode.dtypes?_cons.1 hvalues
      obtain ⟨hf', -⟩ := LoopCode.dtypes?_cons.1 hvalues
      exact .put hf hfirst.code ⟨hbool ▸ hc, _, _, ht', hf', htype⟩ rfl hi (ih hb₂ hp ht)
  | @reduce places inner mark op reduced arg es os b₁ b₂ v r acc start rs refs₁ refs₂ s₁ s₂ s₃
      _ _ _ hident ho _ _ iharg ih =>
    simp only [Block.instrs_step, Block.instrs_append, Opening.instrs_wrap, List.cons_subset,
      List.append_subset] at hb
    obtain ⟨hdeclare, ⟨hheads, ⟨harg, -⟩, -⟩, hload, hrest⟩ := hb
    obtain ⟨he, ht⟩ := List.forall_mem_cons.1 ht
    obtain ⟨-, i, -, -, hstart⟩ := Lowering.identity_eq_ok hident
    obtain ⟨hinner, hopens⟩ : (∀ p ∈ inner, p.Located c) ∧
        ∀ i ∈ Opening.heads os, i.WellTyped inputs env.registry m c := ho.located hf hheads hp
    cases he with
    | reduce hfind htype htyped =>
      -- the argument is computed inside of the new loops, whose elements are located as well
      have hvalue := iharg harg hinner (List.forall_mem_singleton.2 htyped)
      have hresult : env.registry.resultType? op [arg.dtype] = some mark.stamp.dtype := by
        rw [Registry.resultType?, hfind, Option.bind_some, htype]
      have hbefore := Block.WellTyped.reduce ha hdeclare (Identity.dtype_of_literal? hstart)
        hresult hopens hvalue s₂
      exact Block.WellTyped.put hf hbefore ⟨op, LoopCode.accumulator?_eq ha hdeclare⟩ rfl hload
        (ih hrest hp ht)

/-- The code of a nest for a body is well typed, where the code has the type of the body. -/
theorem Nest.For.wellTyped {n : Nest} {env : Lowering.Env} {inlined : Bool}
    {known : String → Option StampedExpr} {body : StampedExpr} (h : n.For env inlined known body)
    {inputs : InputTable} {decls : List (String × Stamp)} {m : LoopModule}
    (hk : ∀ name body, known name = some body → body.Declared inputs env.registry decls m name)
    (ht : body.Typed inputs env.registry decls) {c : LoopCode} (hc : c.instrs = n.tree.instrs)
    (hd : Distinct c.instrs) (hdtype : c.dtype = body.dtype) :
    ∀ i ∈ c.instrs, i.WellTyped inputs env.registry m c := by
  have hf : LoopCode.Followable c.instrs := ⟨hd.regs, hc ▸ h.readsInScope⟩
  have hsub : n.tree.instrs ⊆ c.instrs := hc ▸ List.Subset.refl _
  simp only [n.instrs_tree, List.append_subset, List.cons_subset] at hsub
  obtain ⟨hheads, hblock, -⟩ := hsub
  obtain ⟨hplaces, hopens⟩ : (∀ p ∈ n.places, p.Located c) ∧
      ∀ i ∈ Opening.heads n.openings, i.WellTyped inputs env.registry m c :=
    h.opens.located hf hheads (List.forall_mem_nil _)
  have hvalue := h.emits.wellTyped hk hf hd.accs hblock hplaces (List.forall_mem_singleton.2 ht)
  have hyield : n.yield.WellTyped inputs env.registry m c :=
    (LoopCode.dtypes?_cons.1 hvalue.values).1.trans (congrArg some hdtype.symm)
  rw [hc, n.instrs_tree]
  exact List.forall_mem_append.2 ⟨hopens, List.forall_mem_append.2
    ⟨hvalue.code, List.forall_mem_cons.2 ⟨hyield, Opening.tails_wellTyped _⟩⟩⟩

/-- The code of declarations is well typed. -/
theorem StampedModule.Codes.wellTyped {env : Lowering.Env} {inlined : Bool}
    {done ds : List StampedDecl} {cs : List LoopCode} (h : Codes env inlined done ds cs)
    {inputs : InputTable} {decls : List (String × Stamp)} {m : LoopModule}
    (hdone : ∀ d ∈ done, d.body.Declared inputs env.registry decls m d.name)
    (hds : ∀ d ∈ ds, d.body.Declared inputs env.registry decls m d.name)
    (hdtypes : cs.map LoopCode.dtype = ds.map fun d => d.body.dtype) :
    ∀ c ∈ cs, ∀ i ∈ c.instrs, i.WellTyped inputs env.registry m c := by
  induction h with
  | nil => exact List.forall_mem_nil _
  | @cons done ds d c cs n _ hn _ hc hd _ ih =>
    obtain ⟨hfirst, hrest⟩ := List.forall_mem_cons.1 hds
    rw [List.map_cons, List.map_cons, List.cons.injEq] at hdtypes
    have hk : ∀ name body, bodies done name = some body →
        body.Declared inputs env.registry decls m name := by
      intro name body hbody
      obtain ⟨d', hd', rfl, rfl⟩ := exists_of_bodies hbody
      exact hdone d' hd'
    refine List.forall_mem_cons.2 ⟨hn.wellTyped hk hfirst.typed hc hd hdtypes.1, ?_⟩
    exact ih (List.forall_mem_append.2 ⟨hdone, List.forall_mem_singleton.2 hfirst⟩) hrest hdtypes.2

end LoopNest
