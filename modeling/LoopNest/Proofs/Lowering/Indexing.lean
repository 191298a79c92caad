import LoopNest.Proofs.Lowering.Followed
import LoopNest.Proofs.Lowering.Module
import LoopNest.Proofs.Pipeline

/-! The loops that an input is indexed by. The register of an input leads back through the elements
of open loops. These are the loops for the axes of the innermost one whose carrier its path extends:
at least its own axes, as far as its path is long enough for them. -/
namespace LoopNest

namespace Reference

/-- The axes of the loop that the path of an input starts from: the innermost open one whose carrier
it extends. Without such a loop it starts from the input record. -/
def baseAxes (ref : Reference) : Axes :=
  (Place.find? ref.places ref.use.path.startsWith).elim [] Place.logical

/-- How an input is indexed. Its register leads back through one loop for each of its base axes.
These start with its own axes, as far as its path is long enough to be indexed by them. -/
structure Indexed (uses : List InputUse) (c : LoopCode) (ref : Reference) : Prop where
  trail : ∃ trail, c.trail? ref.reg = some trail ∧ trail.length = ref.baseAxes.length ∧
    ∀ k < ref.baseAxes.length, ∃ p ∈ ref.places, trail[k]? = some p.element ∧
      p.logical = ref.baseAxes.take (k + 1) ∧ p.carrier = ref.use.path.take (k + 1)
  starts : ref.use.axes.take ref.use.path.length <+: ref.baseAxes
  /-- The axes for which a path is too short are carried by other inputs. -/
  short : ref.use.path.length < ref.use.axes.length →
    ref.baseAxes = ref.use.axes.take ref.use.path.length ∧
      ∀ k, ref.use.path.length < k → k ≤ ref.use.axes.length →
        ∃ u ∈ uses, ref.use.axes.take k <+: u.axes ∧ k ≤ u.path.length
  /-- More loops are on the way only where an input with more axes has the next key in common. -/
  exact : ref.use.axes.length ≤ ref.use.path.length →
    (∀ u ∈ uses, ref.use.axes <+: u.axes → ref.use.axes.length < u.axes.length →
      ref.use.axes.length < ref.use.path.length →
      ¬ref.use.path.take (ref.use.axes.length + 1) <+: u.path) →
    ref.baseAxes = ref.use.axes

variable {carriers : CarrierMap} {uses : List InputUse} {c : LoopCode} {ref : Reference}

/-- The base axes have a carrier, which is the start of the path that is as long. -/
theorem carrier_baseAxes (hm : carriers.Records uses) (h : ref.Follows carriers c) :
    ref.baseAxes.length ≤ ref.use.path.length ∧ (ref.baseAxes ≠ [] →
      carriers.find? ref.baseAxes = some (ref.use.path.take ref.baseAxes.length)) := by
  obtain ⟨axes, trail, dtype, is, hst, -, -, -⟩ := h
  unfold baseAxes
  cases hfind : Place.find? ref.places ref.use.path.startsWith with
  | none => exact ⟨Nat.zero_le _, fun hne => absurd rfl hne⟩
  | some q =>
    rw [Option.elim_some]
    obtain ⟨hq, htest⟩ := Place.of_find?_eq_some hfind
    have hcarrier := hst.carrier_of_mem hq
    have hpath := (FieldPath.startsWith_iff _ _).1 htest
    rw [← hm.length_eq hcarrier, ← List.prefix_iff_eq_take.1 hpath]
    exact ⟨hpath.length_le, fun _ => hcarrier⟩

/-- The register of an input leads back through the loops for its base axes. -/
theorem Follows.trail? (hm : carriers.Records uses) (hf : LoopCode.Followable c.instrs)
    (h : ref.Follows carriers c) :
    ∃ trail, c.trail? ref.reg = some trail ∧ trail.length = ref.baseAxes.length ∧
      ∀ k < ref.baseAxes.length, ∃ p ∈ ref.places, trail[k]? = some p.element ∧
        p.logical = ref.baseAxes.take (k + 1) ∧ p.carrier = ref.use.path.take (k + 1) := by
  obtain ⟨hle, hbase⟩ := carrier_baseAxes hm h
  obtain ⟨axes, trail, dtype, is, hst, -, hl, hi⟩ := h
  rcases hl.trail?_eq hf hi with ⟨q, hfind, htrail⟩ | ⟨hfind, htrail⟩
  · have hlogical : q.logical = ref.baseAxes := by rw [baseAxes, hfind, Option.elim_some]
    obtain ⟨outer, before, hq, hsub, hfit⟩ := hst.exists_of_mem (Place.of_find?_eq_some hfind).1
    rw [hlogical] at hq
    refine ⟨before, htrail.trans hfit.2, hq.length_trail, fun k hk => ?_⟩
    obtain ⟨p, hp, helement, hp'⟩ := hq.trail_element (fun _ _ _ _ h => h.1) hk
    refine ⟨p, hsub hp, helement, hp', ?_⟩
    have hfound := hm.find?_take (hbase (List.ne_nil_of_length_pos (by omega))) (Nat.succ_pos k)
    rw [← hp', hq.carrier_of_mem hp, List.take_take, Nat.min_eq_left (by omega)] at hfound
    exact Option.some.inj hfound
  · have hnil : ref.baseAxes = [] := by rw [baseAxes, hfind, Option.elim_none]
    rw [hnil]
    exact ⟨[], htrail, rfl, fun k hk => nomatch hk⟩

theorem Follows.starts (hm : carriers.Records uses) (hu : ref.use ∈ uses)
    (h : ref.Follows carriers c) :
    ref.use.axes.take ref.use.path.length <+: ref.baseAxes := by
  obtain ⟨axes, trail, dtype, is, hst, hcover, -, -⟩ := h
  by_cases hne : ref.use.axes.take ref.use.path.length = []
  · rw [hne]
    exact List.nil_prefix
  · let n := min ref.use.path.length ref.use.axes.length
    have hn : ref.use.axes.take n = ref.use.axes.take ref.use.path.length :=
      List.take_eq_take_min.symm
    have hpos : 0 < n := by
      have := List.length_pos_of_ne_nil hne
      rwa [List.length_take] at this
    have hown := hm.find?_of_mem hu hpos (Nat.min_le_right _ _) (Nat.min_le_left _ _)
    have hpass : ∀ carrier, carriers.find? (ref.use.axes.take ref.use.path.length) = some carrier →
        ref.use.path.startsWith carrier = true := by
      intro carrier hcarrier
      rw [← hn, hown] at hcarrier
      cases hcarrier
      exact (FieldPath.startsWith_iff _ _).2 (List.take_prefix _ _)
    obtain ⟨p, hfind, hp⟩ := hst.find?_extends hne ((List.take_prefix _ _).trans hcover) hpass
    rwa [baseAxes, hfind, Option.elim_some]

/-- All axes of an input are carried by some input. -/
theorem Follows.exists_carrying (hm : carriers.Records uses) (h : ref.Follows carriers c) {k : Nat}
    (hpos : 0 < k) (hk : k ≤ ref.use.axes.length) :
    ∃ u ∈ uses, ref.use.axes.take k <+: u.axes ∧ k ≤ u.path.length := by
  obtain ⟨axes, trail, dtype, is, hst, hcover, -, -⟩ := h
  have hle := hcover.length_le
  obtain ⟨p, hp, -, hlogical⟩ := hst.trail_element (fun _ _ _ _ h => h.1) (k := k - 1) (by omega)
  have hcarrier := hst.carrier_of_mem hp
  obtain ⟨u, hu, haxes, hpath⟩ := hm.exists_use hcarrier
  have htake : p.logical = ref.use.axes.take k := by
    obtain ⟨rest, rfl⟩ := hcover
    rw [hlogical, Nat.sub_add_cancel hpos, List.take_append_of_le_length hk]
  have hlen := hm.length_eq hcarrier
  refine ⟨u, hu, htake ▸ haxes, ?_⟩
  rw [htake, List.length_take, Nat.min_eq_left hk] at hlen
  exact hlen ▸ hpath.length_le

/-- The references of code are indexed by their base axes. -/
theorem Follows.indexed (hm : carriers.Records uses) (hf : LoopCode.Followable c.instrs)
    (hu : ref.use ∈ uses) (h : ref.Follows carriers c) : ref.Indexed uses c := by
  obtain ⟨hle, hbase⟩ := carrier_baseAxes hm h
  have hstarts := h.starts hm hu
  refine ⟨h.trail? hm hf, hstarts, fun hshort => ⟨?_, ?_⟩, fun hlong hno => ?_⟩
  · refine (hstarts.eq_of_length_le ?_).symm
    rw [List.length_take]
    omega
  · exact fun k hlt hk => h.exists_carrying hm (Nat.zero_lt_of_lt hlt) hk
  · rw [List.take_of_length_le hlong] at hstarts
    refine (hstarts.eq_of_length_le (Nat.le_of_not_lt fun hlt => ?_)).symm
    have hne : ref.baseAxes ≠ [] := List.ne_nil_of_length_pos (by omega)
    obtain ⟨u, hmem, haxes, hpath⟩ := hm.exists_use (hbase hne)
    have := haxes.length_le
    refine hno u hmem (hstarts.trans haxes) (by omega) (by omega) (List.IsPrefix.trans ?_ hpath)
    exact List.take_prefix_take_left (by omega)

end Reference
namespace StampedModule

/-- The inputs that the code of declarations reads are indexed by their base axes. -/
theorem Codes.indexed {env : Lowering.Env} {uses : List InputUse} (hm : env.carriers.Records uses)
    {inputs : InputTable} {inlined : Bool} (hi : inlined = false) {done ds : List StampedDecl}
    {cs : List LoopCode} (h : Codes env inlined done ds cs)
    (hc : ConsistentFrom inputs (stamps done) ds)
    (hu : ∀ d ∈ ds, StampedExpr.inputUses d.body ⊆ uses) :
    ∀ d ∈ ds, ∃ c ∈ cs, c.name = d.name ∧
      (d.references env).map Reference.use = StampedExpr.inputUses d.body ∧
      ∀ ref ∈ d.references env, ref.Indexed uses c := by
  induction h with
  | nil => exact List.forall_mem_nil _
  | @cons done ds d c cs n hname hn hrefs hinstrs hdistinct _ ih =>
    obtain ⟨hbody, -, hrest⟩ := hc
    rw [← stamps_append] at hrest
    refine List.forall_mem_cons.2 ⟨⟨c, List.mem_cons_self, hname, ?_⟩, fun d' hd' => ?_⟩
    · have huses : (d.references env).map Reference.use = StampedExpr.inputUses d.body := by
        rw [← hrefs hi, hn.emits.map_use hi, List.flatMap_singleton]
      refine ⟨huses, fun ref href => ?_⟩
      have hf : LoopCode.Followable c.instrs := ⟨hdistinct.regs, hinstrs ▸ hn.readsInScope⟩
      have huse : ref.use ∈ uses := by
        refine hu d List.mem_cons_self ?_
        rw [← huses]
        exact List.mem_map_of_mem href
      rw [← hrefs hi] at href
      exact (hn.follows hm hi hbody hinstrs hf ref href).indexed hm hf huse
    · obtain ⟨c', hc', hrest'⟩ :=
        ih hrest (fun d'' hd'' => hu d'' (List.mem_cons_of_mem _ hd'')) d' hd'
      exact ⟨c', List.mem_cons_of_mem _ hc', hrest'⟩

end StampedModule
namespace LoopModule

/-- In the code of a program, the inputs of each declaration are indexed by their base axes. -/
theorem inputs_indexed_by_base_axes {ds : List (Declaration Span)} {p : Program}
    (hg : Graph.ofDeclarations ds = .ok p.graph) {registry : Registry} {inlining : Bool}
    (hok : Session.failed? (p.lowering registry inlining).1 = none) :
    ∃ sm carriers m,
      (p.lowering registry inlining).2.artifacts.stamped = some sm ∧
      (p.lowering registry inlining).2.artifacts.carriers = some carriers ∧
      (p.lowering registry inlining).2.artifacts.code = some m ∧
      ∀ d ∈ sm.decls, ∃ c ∈ m.decls, c.name = d.name ∧
        (d.references ⟨carriers, registry⟩).map Reference.use = StampedExpr.inputUses d.body ∧
        ∀ ref ∈ d.references ⟨carriers, registry⟩, ref.Indexed sm.inputUses c := by
  obtain ⟨a, sm, carriers, m, ha, hsm, hm, hl, hs⟩ := Session.run_lower hok
  have hc := StampedModule.consistent_ofGraph hg ha hsm
  have hcodes := StampedModule.codes_ofStamped hc hm hl
  refine ⟨sm, carriers, m, by rw [hs], by rw [hs], by rw [hs], ?_⟩
  exact hcodes.indexed (CarrierMap.records_ofModule hm) rfl hc.bodies
    fun d hd u hu => List.mem_flatMap.2 ⟨d, hd, hu⟩

/-- Inputs that share a record: one without axes lies inside of the elements of another, and one is
read by a path that is shorter than its axes. -/
def sharedRecord : List (Declaration Span) :=
  [⟨"p", .value, .call .zero "add" [.input .zero ["x", "z"], .input .zero ["x", "w"]], .zero⟩,
    ⟨"v", .value, .input .zero ["x"], .zero⟩]

def sharedRecordProgram : Program where
  inputs := ((InputTable.put .empty ⟨["x"], [⟨"a"⟩, ⟨"b"⟩], .float, .zero⟩).put
    ⟨["x", "z"], [⟨"a"⟩, ⟨"b"⟩], .float, .zero⟩).put ⟨["x", "w"], [], .float, .zero⟩
  graph := ⟨Graph.numberFrom 0 sharedRecord⟩

theorem sharedRecord_inputs_indexed :
    Graph.ofDeclarations sharedRecord = .ok sharedRecordProgram.graph ∧
      Session.failed? (sharedRecordProgram.lowering .builtins true).1 = none ∧
      ∃ sm carriers m,
        (sharedRecordProgram.lowering .builtins true).2.artifacts.stamped = some sm ∧
        (sharedRecordProgram.lowering .builtins true).2.artifacts.carriers = some carriers ∧
        (sharedRecordProgram.lowering .builtins true).2.artifacts.code = some m ∧
        ∀ d ∈ sm.decls, ∃ c ∈ m.decls, c.name = d.name ∧
          (d.references ⟨carriers, .builtins⟩).map Reference.use = StampedExpr.inputUses d.body ∧
          ∀ ref ∈ d.references ⟨carriers, .builtins⟩, ref.Indexed sm.inputUses c :=
  have hg : Graph.ofDeclarations sharedRecord = .ok sharedRecordProgram.graph := rfl
  have hok : Session.failed? (sharedRecordProgram.lowering .builtins true).1 = none := by
    decide +kernel
  ⟨hg, hok, inputs_indexed_by_base_axes hg hok⟩

/-- Some input with a property is read through a number of loops. -/
def ReadsThrough (env : Lowering.Env) (ds : List StampedDecl) (cs : List LoopCode)
    (P : InputUse → Prop) (loops : Nat) : Prop :=
  ∃ d ∈ ds, ∃ c ∈ cs, c.name = d.name ∧ ∃ ref ∈ d.references env, P ref.use ∧
    (c.trail? ref.reg).map List.length = some loops

instance (env : Lowering.Env) (ds : List StampedDecl) (cs : List LoopCode) (P : InputUse → Prop)
    [DecidablePred P] (loops : Nat) : Decidable (ReadsThrough env ds cs P loops) :=
  inferInstanceAs (Decidable (∃ d ∈ ds, ∃ c ∈ cs, c.name = d.name ∧ ∃ ref ∈ d.references env,
    P ref.use ∧ (c.trail? ref.reg).map List.length = some loops))

/-- Inputs need not be indexed by their own axes: an input without axes is read through a loop, and
an input whose path is shorter than its two axes is accepted, and is read through one loop. -/
theorem sharedRecord_not_indexed_by_own_axes :
    Session.failed? (sharedRecordProgram.lowering .builtins true).1 = none ∧
      ∃ sm carriers m,
        (sharedRecordProgram.lowering .builtins true).2.artifacts.stamped = some sm ∧
        (sharedRecordProgram.lowering .builtins true).2.artifacts.carriers = some carriers ∧
        (sharedRecordProgram.lowering .builtins true).2.artifacts.code = some m ∧
        ReadsThrough ⟨carriers, .builtins⟩ sm.decls m.decls (fun u => u.axes = []) 1 ∧
        ReadsThrough ⟨carriers, .builtins⟩ sm.decls m.decls
          (fun u => u.axes.length = 2 ∧ u.path.length < u.axes.length) 1 := by
  have hok : Session.failed? (sharedRecordProgram.lowering .builtins true).1 = none := by
    decide +kernel
  obtain ⟨a, sm, carriers, m, -, -, -, -, hs⟩ := Session.run_lower hok
  have hfound :
      ((sharedRecordProgram.lowering .builtins true).2.artifacts.stamped.bind fun sm =>
        (sharedRecordProgram.lowering .builtins true).2.artifacts.carriers.bind fun carriers =>
        (sharedRecordProgram.lowering .builtins true).2.artifacts.code.map fun m => decide
          (ReadsThrough ⟨carriers, .builtins⟩ sm.decls m.decls (fun u => u.axes = []) 1 ∧
          ReadsThrough ⟨carriers, .builtins⟩ sm.decls m.decls
            (fun u => u.axes.length = 2 ∧ u.path.length < u.axes.length) 1)) = some true := by
    decide +kernel
  rw [hs] at hfound ⊢
  exact ⟨hok, sm, carriers, m, rfl, rfl, rfl, of_decide_eq_true (Option.some.inj hfound)⟩

end LoopModule
end LoopNest
