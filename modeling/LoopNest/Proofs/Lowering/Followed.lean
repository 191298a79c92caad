import LoopNest.Proofs.Code.Following
import LoopNest.Proofs.Lowering.Scoping
import LoopNest.Proofs.Lowering.Trail

/-! Emitted code, followed back: the element of an open loop leads through the loops for its axes to
the input, and so does what is loaded from it. -/
namespace LoopNest

namespace Stack

variable {ε ι : Type} {carriers : CarrierMap} {fits : Axes → FieldPath → List ι → ε → Prop}
  {places : List (Place ε)} {axes : Axes} {trail : List ι}

/-- Each loop is the innermost one of a stack of its own. -/
theorem exists_of_mem (h : Stack carriers fits places axes trail) {p : Place ε} (hp : p ∈ places) :
    ∃ outer before, Stack carriers fits (p :: outer) p.logical before ∧ p :: outer ⊆ places ∧
      fits p.logical p.carrier before p.element := by
  induction h with
  | nil => cases hp
  | @push places axes kept trail a i carrier e hst hk hc hfit ih =>
    rcases List.mem_cons.1 hp with rfl | hp
    · exact ⟨places, _, hst.push hk hc hfit, List.Subset.refl _, hfit⟩
    · obtain ⟨outer, before, hst', hsub, hfit'⟩ := ih hp
      exact ⟨outer, before, hst', List.subset_cons_of_subset _ hsub, hfit'⟩

/-- The innermost loop that passes a test is over at least the axes whose loop passes. -/
theorem find?_extends (h : Stack carriers fits places axes trail) {start : Axes} (hne : start ≠ [])
    (hs : start <+: axes) {test : FieldPath → Bool}
    (hpass : ∀ carrier, carriers.find? start = some carrier → test carrier = true) :
    ∃ p, Place.find? places test = some p ∧ start <+: p.logical := by
  induction h with
  | nil => exact absurd (List.prefix_nil.1 hs) hne
  | @push places axes kept trail a i carrier e _ hk hc _ ih =>
    by_cases htest : test carrier = true
    · exact ⟨_, Place.find?_cons_of_pos htest _, hs⟩
    · rcases eq_or_prefix hs with rfl | ⟨hstart, -⟩
      · exact absurd (hpass carrier hc) htest
      · obtain ⟨p, hfind, hp⟩ := ih (hstart.trans hk)
        exact ⟨p, (Place.find?_cons_of_neg htest _).trans hfind, hp⟩

end Stack

/-- The trail of a stack has the elements of the loops for its axes, one after the other. -/
theorem Stack.trail_element {carriers : CarrierMap}
    {fits : Axes → FieldPath → List Reg → Reg → Prop} {places : List (Place Reg)} {axes : Axes}
    {trail : List Reg} (h : Stack carriers fits places axes trail)
    (hlast : ∀ axes carrier trail e, fits axes carrier trail e → Leads axes carrier trail e)
    {k : Nat} (hk : k < axes.length) :
    ∃ p ∈ places, trail[k]? = some p.element ∧ p.logical = axes.take (k + 1) := by
  induction h with
  | nil => cases hk
  | @push places axes kept trail a i carrier e hst hkept _ hfit ih =>
    have hlen := hst.length_trail
    have hle := hkept.length_le
    have htake : (trail.take kept.length).length = kept.length := by
      rw [List.length_take]
      omega
    rw [List.length_append, List.length_singleton] at hk
    by_cases hin : k < kept.length
    · obtain ⟨p, hp, helement, hlogical⟩ := ih (by omega)
      refine ⟨p, List.mem_cons_of_mem _ hp, ?_, ?_⟩
      · rw [List.getElem?_append_left (by omega), List.getElem?_take_of_lt hin, helement]
      · rw [hlogical, List.take_append_of_le_length (by omega)]
        obtain ⟨rest, rfl⟩ := hkept
        rw [List.take_append_of_le_length (by omega)]
    · have hk : k = kept.length := by omega
      have hie : i = e := by
        have := hlast _ _ _ _ hfit
        rw [Leads, List.getLast?_concat] at this
        exact Option.some.inj this
      refine ⟨_, List.mem_cons_self, ?_, ?_⟩
      · rw [List.getElem?_append_right (by omega), htake, hk, Nat.sub_self, hie]
        rfl
      · rw [List.take_of_length_le]
        simp only [List.length_append, List.length_singleton]
        omega

/-- An element is followed back through its trail, up to itself. -/
def Followed (c : LoopCode) (axes : Axes) (carrier : FieldPath) (trail : List Reg) (element : Reg) :
    Prop :=
  Leads axes carrier trail element ∧ c.trail? element = some trail

section Follow

variable {c : LoopCode} (hf : LoopCode.Followable c.instrs)
include hf

theorem Walks.route?_eq {dtype : Option DType} {base r : Reg} {keys : FieldPath} {is : List Instr}
    (h : Walks dtype base keys is r) (hi : is ⊆ c.instrs) :
    c.route? r = (c.route? base).map (· ++ keys.map .field) := by
  induction h with
  | stay => simp
  | load _ ih =>
    obtain ⟨hload, hrest⟩ := List.cons_subset.1 hi
    rw [ih hrest, hf.route?_loadField hload, Option.map_map]
    simp [Function.comp_def]

/-- What is loaded comes from where its path starts, by the keys that are left. -/
theorem Loads.route?_eq {dtype : Option DType} {places : List (Place Reg)} {test : FieldPath → Bool}
    {path : FieldPath} {is : List Instr} {r : Reg} (h : Loads dtype places test path is r)
    (hi : is ⊆ c.instrs) :
    (∃ p, Place.find? places test = some p ∧
      c.route? r = (c.route? p.element).map (· ++ (path.drop p.carrier.length).map .field)) ∨
      (Place.find? places test = none ∧ c.route? r = some (path.map .field)) := by
  cases h with
  | place hfind hw => exact .inl ⟨_, hfind, hw.route?_eq hf hi⟩
  | root hfind hw =>
    obtain ⟨hload, hrest⟩ := List.cons_subset.1 hi
    rw [hw.route?_eq hf hrest, hf.route?_loadInput hload]
    exact .inr ⟨hfind, rfl⟩

/-- What is loaded comes through the same loops as where its path starts. -/
theorem Loads.trail?_eq {dtype : Option DType} {places : List (Place Reg)} {test : FieldPath → Bool}
    {path : FieldPath} {is : List Instr} {r : Reg} (h : Loads dtype places test path is r)
    (hi : is ⊆ c.instrs) :
    (∃ p, Place.find? places test = some p ∧ c.trail? r = c.trail? p.element) ∨
      (Place.find? places test = none ∧ c.trail? r = some []) := by
  rcases h.route?_eq hf hi with ⟨p, hfind, hroute⟩ | ⟨hfind, hroute⟩
  · refine .inl ⟨p, hfind, ?_⟩
    rw [LoopCode.trail?, LoopCode.trail?, hroute]
    cases c.route? p.element with
    | none => rfl
    | some hops =>
      rw [Option.map_some, Option.map_some, List.filterMap_append,
        Hop.filterMap_element?_map_field, List.append_nil]
      rfl
  · refine .inr ⟨hfind, ?_⟩
    rw [LoopCode.trail?, hroute, Option.map_some, Hop.filterMap_element?_map_field]

/-- The loops that are opened are followed back through those around. -/
theorem Opens.followed {carriers : CarrierMap} {uses : List InputUse} (hm : carriers.Records uses)
    {places inner : List (Place Reg)} {axes rest : Axes} {os : List Opening}
    (h : Opens carriers places axes rest os inner) (hi : Opening.heads os ⊆ c.instrs)
    {covered : Axes} {trail : List Reg} (hst : Stack carriers (Followed c) places covered trail)
    (ha : axes <+: covered) (hne : rest = [] → axes = covered) :
    ∃ trail', Stack carriers (Followed c) inner (axes ++ rest) trail' := by
  induction h generalizing covered trail with
  | nil =>
    rw [hne rfl, List.append_nil]
    exact ⟨trail, hst⟩
  | @cons places inner axes rest a carrier o os hc _ hl _ ih =>
    rw [Opening.heads_cons] at hi
    obtain ⟨hloads, hstart⟩ := List.append_subset.1 hi
    obtain ⟨hstart, hrest⟩ := List.cons_subset.1 hstart
    have hcollection : c.trail? o.collection = some (trail.take axes.length) := by
      rcases hst.find?_inside hm ha hc with ⟨rfl, hnone⟩ | ⟨e, -, hsome, hfit⟩
      · rcases hl.trail?_eq hf hloads with ⟨p, hfind, -⟩ | ⟨-, htrail⟩
        · rw [hnone] at hfind
          cases hfind
        · exact htrail
      · rcases hl.trail?_eq hf hloads with ⟨p, hfind, htrail⟩ | ⟨hfind, -⟩
        · rw [hsome] at hfind
          cases hfind
          exact htrail.trans hfit.2
        · rw [hsome] at hfind
          cases hfind
    have helement : c.trail? o.element = some (trail.take axes.length ++ [o.element]) := by
      rw [hf.trail?_element hstart, hcollection]
      rfl
    have hpush : Stack carriers (Followed c) (⟨axes ++ [a], carrier, o.element⟩ :: places)
        (axes ++ [a]) (trail.take axes.length ++ [o.element]) :=
      hst.push ha hc ⟨List.getLast?_concat, helement⟩
    have hinner := ih hrest hpush (List.prefix_refl _) fun _ => rfl
    rwa [List.append_assoc] at hinner

end Follow

/-- A place where an input is read: it is inside of loops over its axes, which can be followed back,
and its path is loaded there. -/
def Reference.Follows (carriers : CarrierMap) (c : LoopCode) (ref : Reference) : Prop :=
  ∃ axes trail dtype is, Stack carriers (Followed c) ref.places axes trail ∧
    ref.use.axes <+: axes ∧ Loads dtype ref.places ref.use.path.startsWith ref.use.path is ref.reg ∧
    is ⊆ c.instrs

/-- The inputs that emitted code reads are followed back through its loops. -/
theorem Emits.follows {env : Lowering.Env} {known : String → Option StampedExpr}
    {uses : List InputUse} (hm : env.carriers.Records uses) {c : LoopCode}
    (hf : LoopCode.Followable c.instrs) {inputs : InputTable} {decls : List (String × Stamp)}
    {inlined : Bool} (hi : inlined = false) {places : List (Place Reg)} {es : List StampedExpr}
    {b : Block} {rs : List Reg} {refs : List Reference}
    (h : Emits env inlined known places es b rs refs) (hb : b.instrs ⊆ c.instrs)
    (hc : ∀ e ∈ es, e.Consistent inputs decls) {axes : Axes} {trail : List Reg}
    (hst : Stack env.carriers (Followed c) places axes trail) (he : ∀ e ∈ es, e.axes <+: axes) :
    ∀ ref ∈ refs, ref.Follows env.carriers c := by
  induction h generalizing axes trail with
  | nil => exact List.forall_mem_nil _
  | constant _ ih =>
    exact ih (List.cons_subset.1 hb).2 (List.forall_mem_cons.1 hc).2 hst
      (List.forall_mem_cons.1 he).2
  | input hl _ ih =>
    rw [Block.instrs_steps, List.append_subset] at hb
    obtain ⟨hcover, he⟩ := List.forall_mem_cons.1 he
    refine List.forall_mem_cons.2 ⟨⟨axes, trail, _, _, hst, hcover, hl, hb.1⟩, ?_⟩
    exact ih hb.2 (List.forall_mem_cons.1 hc).2 hst he
  | load _ _ _ _ ih =>
    exact ih (List.cons_subset.1 hb).2 (List.forall_mem_cons.1 hc).2 hst
      (List.forall_mem_cons.1 he).2
  | compute hinlined =>
    rw [hi] at hinlined
    cases hinlined
  | call _ _ ihargs ih =>
    rw [Block.instrs_append, List.append_subset] at hb
    obtain ⟨hcall, hc⟩ := List.forall_mem_cons.1 hc
    obtain ⟨hcover, he⟩ := List.forall_mem_cons.1 he
    cases hcall with
    | call hlub hargs =>
      refine List.forall_mem_append.2 ⟨ihargs hb.1 hargs hst fun a ha => ?_,
        ih (List.cons_subset.1 hb.2).2 hc hst he⟩
      exact (Axes.prefix_of_lub hlub (List.mem_map.2 ⟨a, ha, rfl⟩)).trans hcover
  | tuple _ _ ihelems ih =>
    rw [Block.instrs_append, List.append_subset] at hb
    obtain ⟨htuple, hc⟩ := List.forall_mem_cons.1 hc
    obtain ⟨hcover, he⟩ := List.forall_mem_cons.1 he
    cases htuple with
    | tuple hlub helems =>
      refine List.forall_mem_append.2 ⟨ihelems hb.1 helems hst fun a ha => ?_,
        ih (List.cons_subset.1 hb.2).2 hc hst he⟩
      exact (Axes.prefix_of_lub hlub (List.mem_map.2 ⟨a, ha, rfl⟩)).trans hcover
  | @select _ _ c t f _ _ _ _ _ _ _ _ _ _ _ _ _ ihparts ih =>
    rw [Block.instrs_append, List.append_subset] at hb
    obtain ⟨hselect, hc⟩ := List.forall_mem_cons.1 hc
    obtain ⟨hcover, he⟩ := List.forall_mem_cons.1 he
    cases hselect with
    | select hlub hcond htrue hfalse =>
      have hparts : ∀ e ∈ [c, t, f], e.Consistent inputs decls := by
        simp [hcond, htrue, hfalse]
      refine List.forall_mem_append.2 ⟨ihparts hb.1 hparts hst fun a ha => ?_,
        ih (List.cons_subset.1 hb.2).2 hc hst he⟩
      have hmem : a.axes ∈ [c, t, f].map StampedExpr.axes := List.mem_map.2 ⟨a, ha, rfl⟩
      exact (Axes.prefix_of_lub hlub hmem).trans hcover
  | reduce _ haxes hne _ ho _ _ iharg ih =>
    simp only [Block.instrs_step, Block.instrs_append, Opening.instrs_wrap, List.cons_subset,
      List.append_subset] at hb
    obtain ⟨-, ⟨hheads, ⟨harg, -⟩, -⟩, -, hrest⟩ := hb
    obtain ⟨hreduce, hc⟩ := List.forall_mem_cons.1 hc
    obtain ⟨hcover, he⟩ := List.forall_mem_cons.1 he
    cases hreduce with
    | reduce _ _ hcarg =>
      obtain ⟨trail', hinner⟩ := ho.followed hf hm hheads hst hcover fun h => absurd h hne
      refine List.forall_mem_append.2 ⟨iharg harg (List.forall_mem_singleton.2 hcarg) hinner ?_,
        ih hrest hc hst he⟩
      exact List.forall_mem_singleton.2 (haxes ▸ List.prefix_refl _)

/-- The inputs that are noted are those of the expressions, in order. -/
theorem Emits.map_use {env : Lowering.Env} {known : String → Option StampedExpr} {inlined : Bool}
    (hi : inlined = false) {places : List (Place Reg)} {es : List StampedExpr} {b : Block}
    {rs : List Reg} {refs : List Reference} (h : Emits env inlined known places es b rs refs) :
    refs.map Reference.use = es.flatMap StampedExpr.inputUses := by
  induction h with
  | nil => rfl
  | constant _ ih | load _ _ _ _ ih =>
    rw [ih, List.flatMap_cons, StampedExpr.inputUses]
    rfl
  | input _ _ ih =>
    rw [List.map_cons, ih, List.flatMap_cons, StampedExpr.inputUses]
    rfl
  | compute hinlined =>
    rw [hi] at hinlined
    cases hinlined
  | call _ _ ihargs ih | tuple _ _ ihargs ih =>
    rw [List.map_append, ihargs, ih, List.flatMap_cons, StampedExpr.inputUses,
      StampedExpr.inputUsesAll_eq]
  | select _ _ ihparts ih =>
    simp [ihparts, ih, StampedExpr.inputUses]
  | reduce _ _ _ _ _ _ _ iharg ih =>
    simp [iharg, ih, StampedExpr.inputUses]

/-- The inputs that a nest reads are followed back through its loops. -/
theorem Nest.For.follows {n : Nest} {env : Lowering.Env} {known : String → Option StampedExpr}
    {body : StampedExpr} {uses : List InputUse} (hm : env.carriers.Records uses) {inlined : Bool}
    (hi : inlined = false) (h : n.For env inlined known body) {inputs : InputTable}
    {decls : List (String × Stamp)} (hc : body.Consistent inputs decls) {c : LoopCode}
    (hinstrs : c.instrs = n.tree.instrs) (hf : LoopCode.Followable c.instrs) :
    ∀ ref ∈ n.refs, ref.Follows env.carriers c := by
  rw [n.instrs_tree] at hinstrs
  have hheads : Opening.heads n.openings ⊆ c.instrs := by
    rw [hinstrs]
    exact List.subset_append_left _ _
  have hblock : n.block.instrs ⊆ c.instrs := by
    rw [hinstrs]
    exact List.subset_append_of_subset_right _ (List.subset_append_left _ _)
  obtain ⟨trail, hst⟩ := h.opens.followed hf hm hheads .nil (List.prefix_refl _) fun _ => rfl
  exact h.emits.follows hm hf hi hblock (List.forall_mem_singleton.2 hc) hst
    (List.forall_mem_singleton.2 (List.prefix_refl _))

end LoopNest
