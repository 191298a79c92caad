import LoopNest.Proofs.Inlining.Order
import LoopNest.Proofs.LoopContext

/-! Inlining twice is inlining once. A load that stays is not inside of loops over the very axes of
the declaration that it names. This stays so when the code is carried over into other code, since
the loops around it there are over the same axes. -/
namespace LoopNest

/-- A load stands under other axes than those that the declaration yields under. -/
def Instr.Apart (done : List LoopCode) (before : List Instr) (i : Instr) : Prop :=
  ∀ name callee, i.op.loaded? = some name →
    (done.find? fun c => c.name == name) = some callee →
    callee.contextAtYield.map OpenLoop.axis ≠ (openLoops before).reverse.map OpenLoop.axis

theorem Instr.Apart.of_append {done more : List LoopCode} {before : List Instr} {i : Instr}
    (h : i.Apart (done ++ more) before) : i.Apart done before := by
  intro name callee hload hfind
  refine h name callee hload ?_
  rw [List.find?_append, hfind, Option.some_or]

/-- All declarations that are loaded are there, and no load can be replaced. -/
structure LoopCode.Settled (done : List LoopCode) (c : LoopCode) : Prop where
  loads : c.loads ⊆ done.map LoopCode.name
  apart : AtEach (Instr.Apart done) [] c.instrs

theorem LoopCode.mem_loads {c : LoopCode} {before rest : List Instr} {i : Instr}
    (h : c.instrs = before ++ i :: rest) {name : String} (hload : i.op.loaded? = some name) :
    name ∈ c.loads := by
  refine List.mem_filterMap.2 ⟨i, ?_, hload⟩
  rw [h]
  exact List.mem_append_right _ List.mem_cons_self

/-- More declarations do not matter. -/
theorem LoopCode.Settled.append {done : List LoopCode} {c : LoopCode} (h : c.Settled done)
    (more : List LoopCode) : c.Settled (done ++ more) := by
  refine ⟨?_, fun before i rest hi name callee hload hfind => ?_⟩
  · rw [List.map_append]
    exact List.subset_append_of_subset_left _ h.loads
  · rw [find?_title_append (h.loads (mem_loads hi hload))] at hfind
    exact h.apart before i rest hi name callee hload hfind

theorem Op.loaded?_mapInputs (f : Reg → Reg) (op : Op) : (op.mapInputs f).loaded? = op.loaded? := by
  cases op <;> rfl

theorem OpenLoop.after_mapInputs (stack : List OpenLoop) (f : Reg → Reg) (op : Op) :
    after stack (op.mapInputs f) = after stack op := by
  cases op <;> rfl

namespace Renaming

theorem loaded?_op (ρ : Renaming) (op : Op) : (ρ.op op).loaded? = op.loaded? := by
  cases op <;> rfl

/-- Renamed loops are over the same axes. -/
theorem axes_after (ρ : Renaming) {stack stack' : List OpenLoop}
    (h : stack'.map OpenLoop.axis = stack.map OpenLoop.axis) (op : Op) :
    (OpenLoop.after stack' (ρ.op op)).map OpenLoop.axis =
      (OpenLoop.after stack op).map OpenLoop.axis := by
  cases op with
  | loopStart axis collection element index id => exact congrArg (axis :: ·) h
  | loopEnd id =>
    change stack'.tail.map OpenLoop.axis = stack.tail.map OpenLoop.axis
    rw [List.map_tail, List.map_tail, h]
  | _ => exact h

/-- Renamed code is as settled as the code, inside of loops over the same axes. -/
theorem atEach_apart (ρ : Renaming) {done : List LoopCode} {before before' is : List Instr}
    (haxes : (openLoops before').map OpenLoop.axis = (openLoops before).map OpenLoop.axis)
    (h : AtEach (Instr.Apart done) before is) :
    AtEach (Instr.Apart done) before' (is.map ρ.instr) := by
  induction is generalizing before before' with
  | nil => exact atEach_nil
  | cons i is ih =>
    obtain ⟨hi, his⟩ := atEach_cons.1 h
    refine atEach_cons.2 ⟨fun name callee hload hfind => ?_, ih ?_ his⟩
    · rw [List.map_reverse, haxes, ← List.map_reverse]
      exact hi name callee ((ρ.loaded?_op i.op).symm.trans hload) hfind
    · rw [openLoops_append, openLoops_append]
      exact ρ.axes_after haxes i.op

end Renaming

/-- The block of a nest is as settled in other loops over the same axes. -/
theorem Nest.For.atEach_apart {n : Nest} {env : Lowering.Env} {inlined : Bool}
    {known : String → Option StampedExpr} {body : StampedExpr} (hn : n.For env inlined known body)
    {done : List LoopCode} {c : LoopCode} (hc : c.instrs = n.tree.instrs) (h : c.Settled done)
    {before : List Instr}
    (haxes : n.context.map OpenLoop.axis = (openLoops before).reverse.map OpenLoop.axis)
    (ρ : Renaming) : AtEach (Instr.Apart done) before (n.block.map ρ.instr).instrs := by
  have hheads : openLoops (Opening.heads n.openings) = n.context.reverse := by
    rw [openLoops, hn.opens.foldl_after, List.append_nil]
    rfl
  have hapart := h.apart
  rw [hc, n.instrs_tree, atEach_append, atEach_append] at hapart
  rw [Block.instrs_map]
  refine ρ.atEach_apart ?_ hapart.2.1
  rw [List.nil_append, hheads, List.map_reverse, haxes, List.map_reverse, List.reverse_reverse]

namespace Inlining

variable {env : Lowering.Env} {known : String → Option StampedExpr} {done : List LoopCode}

/-- A load stays just where it is apart. -/
theorem Site.replacement?_eq_none_iff (hn : (done.map LoopCode.name).Nodup) {s : Site}
    {before : List Instr} (hs : openLoops before = s.loops) {i : Instr}
    (hi : ∀ name, i.op.loaded? = some name → i.result.isSome) :
    s.replacement? done i = none ↔ i.Apart done before := by
  rcases i with ⟨result, op, span⟩
  cases op with
  | loadDeclaration name axes dtype =>
    obtain ⟨r, rfl⟩ := Option.isSome_iff_exists.1 (hi name rfl)
    rw [replacement?, Option.map_eq_none_iff]
    cases hfind : done.find? fun c => c.name == name with
    | none =>
      refine iff_of_true (by rw [splice?, hfind]) ?_
      rintro _ callee ⟨⟩ hcallee
      rw [hfind] at hcallee
      cases hcallee
    | some callee =>
      rw [splice?_of_find? hfind (find?_reverse hn name ▸ hfind)]
      constructor
      · rintro h _ _ ⟨⟩ hcallee haxes
        cases hfind.symm.trans hcallee
        rw [hs] at haxes
        rw [if_pos haxes] at h
        cases h
      · intro h
        exact if_neg (hs ▸ h name callee rfl hfind)
  | _ =>
    refine iff_of_true rfl fun name callee hload => ?_
    cases hload

/-- The elements of open loops are registers that the code before defines. -/
theorem lt_of_mem_after {loops : List OpenLoop} {i : Instr} {next : Nat}
    (hs : ∀ l ∈ loops, l.element.index < next) (hi : ∀ r ∈ i.defs, r.index < next) :
    ∀ l ∈ OpenLoop.after loops i.op, l.element.index < next := by
  rcases i with ⟨result, op, span⟩
  cases op with
  | loopStart axis collection element index id =>
    refine List.forall_mem_cons.2 ⟨hi element ?_, hs⟩
    exact List.mem_append_right _ List.mem_cons_self
  | loopEnd id => exact fun l hl => hs l (List.mem_of_mem_tail hl)
  | _ => exact hs

/-- What is inlined has no load that can be replaced. -/
theorem Site.atEach_inline (hdone : Finished env known done) (hn : (done.map LoopCode.name).Nodup)
    (hsettled : ∀ c ∈ done, c.Settled done) {s : Site} {before is : List Instr}
    (hs : openLoops before = s.loops) (hold : ∀ l ∈ s.loops, l.element.index < s.counter.reg)
    (hregs : ∀ r ∈ is.flatMap Instr.defs, r.index < s.counter.reg)
    (hresults : ∀ i ∈ is, ∀ name, i.op.loaded? = some name → i.result.isSome) :
    AtEach (Instr.Apart done) before (s.inline done is) := by
  -- behind what stays and behind a splice, the result has the same loops open as the code
  induction is generalizing s before with
  | nil => exact atEach_nil
  | cons i is ih =>
    obtain ⟨hi, hresults⟩ := List.forall_mem_cons.1 hresults
    rw [List.flatMap_cons] at hregs
    obtain ⟨hdefs, hregs⟩ := List.forall_mem_append.1 hregs
    cases hr : s.replacement? done i with
    | none =>
      rw [inline_cons hr]
      refine atEach_cons.2 ⟨?_, ih ?_ (lt_of_mem_after hold hdefs) hregs hresults⟩
      · intro name callee hload
        rw [Op.loaded?_mapInputs] at hload
        exact (replacement?_eq_none_iff hn hs hi).1 hr name callee hload
      · rw [openLoops_append, hs]
        exact OpenLoop.after_mapInputs s.loops s.reg i.op
    | some rp =>
      obtain ⟨r, p⟩ := rp
      obtain ⟨name, hp⟩ := exists_of_replacement? hr
      obtain ⟨callee, n, body, ρ, hmem, hc, -, hfor, haxes, hρ, rfl⟩ :=
        exists_of_splice? hdone hold hp
      have hle := hρ.regs.le
      rw [inline, hr]
      refine atEach_append.2 ⟨hfor.atEach_apart hc (hsettled callee hmem) (hs ▸ haxes) ρ,
        ih ?_ (fun l hl => Nat.lt_of_lt_of_le (hold l hl) hle)
          (fun q hq => Nat.lt_of_lt_of_le (hregs q hq) hle) hresults⟩
      rw [openLoops_block before (hfor.emits.rename ρ).regular, hs]

/-- Nothing changes where no load can be replaced. -/
theorem Site.inline_eq_self (hn : (done.map LoopCode.name).Nodup) {counter : CodeCounter}
    {loops : List OpenLoop} {before is : List Instr} (hs : openLoops before = loops)
    (hresults : ∀ i ∈ is, ∀ name, i.op.loaded? = some name → i.result.isSome)
    (h : AtEach (Instr.Apart done) before is) : Site.inline done ⟨counter, [], loops⟩ is = is := by
  induction is generalizing loops before with
  | nil => rfl
  | cons i is ih =>
    obtain ⟨hi, hresults⟩ := List.forall_mem_cons.1 hresults
    obtain ⟨hapart, h⟩ := atEach_cons.1 h
    have hsame : i.op.mapInputs (Site.reg ⟨counter, [], loops⟩) = i.op :=
      Op.mapInputs_eq_self fun r _ => rfl
    have hafter : openLoops (before ++ [i]) = OpenLoop.after loops i.op := by
      rw [openLoops_append, hs]
      rfl
    rw [inline_cons ((replacement?_eq_none_iff hn hs hi).2 hapart), hsame, ih hafter hresults h]

theorem inlineFrom_eq_self {cs : List LoopCode} (hn : ((done ++ cs).map LoopCode.name).Nodup)
    (hresults : ∀ c ∈ cs, ∀ i ∈ c.instrs, ∀ name, i.op.loaded? = some name → i.result.isSome)
    (h : ∀ c ∈ cs, c.Settled (done ++ cs)) : inlineFrom done cs = cs := by
  induction cs generalizing done with
  | nil => rfl
  | cons c cs ih =>
    obtain ⟨hc, hcs⟩ := List.forall_mem_cons.1 h
    obtain ⟨hresult, hresults⟩ := List.forall_mem_cons.1 hresults
    have hold : (done.map LoopCode.name).Nodup := by
      rw [List.map_append] at hn
      exact hn.of_append_left
    have hsame : inlineCode done c = c := by
      have hopen : openLoops [] = [] := rfl
      rw [inlineCode, Site.inline_eq_self hold hopen hresult fun before i rest hi =>
        (hc.apart before i rest hi).of_append]
    rw [List.append_cons] at hn hcs
    rw [inlineFrom, hsame, ih hn hresults hcs]

end Inlining

namespace StampedModule

open Inlining

/-- Inlining into one declaration after the other settles all of them. -/
theorem settled_inlineFrom {env : Lowering.Env} {done ds : List StampedDecl}
    {cs done' : List LoopCode} (h : Codes env false done ds cs)
    (hnames : ((done ++ ds).map StampedDecl.name).Nodup)
    (hdone : Finished env (bodies done) done')
    (hsame : done'.map LoopCode.name = done.map StampedDecl.name)
    (hsettled : ∀ c ∈ done', c.Settled done') :
    ∀ c ∈ done' ++ inlineFrom done' cs, c.Settled (done' ++ inlineFrom done' cs) := by
  induction h generalizing done' with
  | nil =>
    rw [inlineFrom, List.append_nil]
    exact hsettled
  | @cons done ds d c cs n hname hn _ hc hd _ ih =>
    have hold : (done'.map LoopCode.name).Nodup := by
      rw [List.map_append] at hnames
      exact hsame ▸ hnames.of_append_left
    have hnew := name_not_mem hnames
    obtain ⟨n', hn', hc'⟩ := nest_inlineCode hdone hn hc hd
    have hone : (inlineCode done' c).Settled done' := by
      refine ⟨hsame ▸ hn'.loads_subset hc', Site.atEach_inline hdone hold hsettled rfl
        (List.forall_mem_nil _) CodeCounter.reg_lt_past fun i hi name hload => ?_⟩
      exact (hn.of_loaded (hc ▸ hi) hload).2
    rw [inlineFrom, List.append_cons]
    rw [List.append_cons] at hnames
    refine ih hnames (hdone.append_inlineCode hsame hnew hname hn hc hd) ?_ ?_
    · rw [List.map_append, List.map_append, hsame, List.map_singleton, List.map_singleton, ← hname]
      rfl
    · exact List.forall_mem_append.2 ⟨fun c' hmem => (hsettled c' hmem).append _,
        List.forall_mem_singleton.2 (hone.append _)⟩

theorem Codes.results {env : Lowering.Env} {inlined : Bool} {done ds : List StampedDecl}
    {cs : List LoopCode} (h : Codes env inlined done ds cs) :
    ∀ c ∈ cs, ∀ i ∈ c.instrs, ∀ name, i.op.loaded? = some name → i.result.isSome := by
  induction h with
  | nil => exact List.forall_mem_nil _
  | cons _ hn _ hc _ _ ih =>
    refine List.forall_mem_cons.2 ⟨fun i hi name hload => ?_, ih⟩
    exact (hn.of_loaded (hc ▸ hi) hload).2

end StampedModule

namespace LoopModule

/-- No declaration is loaded inside of loops over exactly its axes. -/
def LoadsApart (m : LoopModule) : Prop :=
  ∀ c ∈ m.decls, ∀ before i rest name axes dtype, c.instrs = before ++ i :: rest →
    i.op = .loadDeclaration name axes dtype →
    ∃ callee ∈ m.decls, callee.name = name ∧
      (openLoops before).reverse.map OpenLoop.axis ≠ callee.axes

/-- Inlining a second time changes nothing, since all loads that are left stand under other axes
than those of the declarations that they name. -/
theorem inline_idempotent {ds : List (Declaration Span)} {p : Program}
    (hg : Graph.ofDeclarations ds = .ok p.graph) {registry : Registry} {inlining : Bool}
    (hok : Session.failed? (p.lowering registry inlining).1 = none) :
    ∃ m, (p.lowering registry inlining).2.artifacts.code = some m ∧
      m.inline.inline = m.inline ∧ m.inline.LoadsApart := by
  obtain ⟨a, sm, carriers, m, ha, hsm, hm, hl, hs⟩ := Session.run_lower hok
  have hc := StampedModule.consistent_ofGraph hg ha hsm
  have hcodes := StampedModule.codes_ofStamped hc hm hl
  have hinlined := StampedModule.codes_inline hcodes hc.names
  have hnames : (m.inline.decls.map LoopCode.name).Nodup := hinlined.names ▸ hc.names
  have hsettled : ∀ c ∈ m.inline.decls, c.Settled m.inline.decls := by
    have hnone : ∀ c ∈ ([] : List LoopCode), c.Settled [] := fun c hmem => nomatch hmem
    have hempty : Inlining.Finished ⟨carriers, registry⟩ (StampedModule.bodies []) [] :=
      fun _ _ hfind => nomatch hfind
    exact StampedModule.settled_inlineFrom hcodes hc.names hempty rfl hnone
  refine ⟨m, by rw [hs], ?_, fun c hmem before i rest name axes dtype hi hop => ?_⟩
  · have hagain : Inlining.inlineFrom [] m.inline.decls = m.inline.decls :=
      Inlining.inlineFrom_eq_self hnames hinlined.results hsettled
    rw [inline, hagain]
  · have hload : i.op.loaded? = some name := by rw [hop]; rfl
    obtain ⟨callee, hcallee, rfl⟩ :=
      List.mem_map.1 ((hsettled c hmem).loads (LoopCode.mem_loads hi hload))
    have hheaders : m.inline.decls.map LoopCode.header = sm.decls.map StampedDecl.header :=
      (headers_inlineFrom [] _).trans (headers_ofStamped hl)
    obtain ⟨haxes, -⟩ := hinlined.contexts_of_headers hc hheaders callee hcallee
    have hfind := (find?_title_eq_some_iff hnames).2 ⟨hcallee, rfl⟩
    have hapart := (hsettled c hmem).apart before i rest hi callee.name callee hload hfind
    rw [haxes] at hapart
    exact ⟨callee, hcallee, rfl, hapart.symm⟩

/-- Scores on top of a bound, and their sum. The bound is loaded inside of the loop over the scores,
and is still loaded there in the code that takes in this loop. -/
def liftedScores : List (Declaration Span) :=
  [⟨"bound", .value, .input .zero ["limit"], .zero⟩,
    ⟨"lifted", .value, .call .zero "add" [.input .zero ["scores"], .ref .zero "bound"], .zero⟩,
    ⟨"total", .value, .reduce .zero "sum" none (.ref .zero "lifted"), .zero⟩]

def liftedScoresProgram : Program where
  inputs := scoreInputs
  graph := ⟨Graph.numberFrom 0 liftedScores⟩

theorem liftedScores_inline_idempotent :
    Graph.ofDeclarations liftedScores = .ok liftedScoresProgram.graph ∧
      Session.failed? (liftedScoresProgram.lowering .builtins true).1 = none ∧
      (liftedScoresProgram.lowering .builtins true).2.artifacts.code.map
        (fun m => m.inline.decls.map LoopCode.loads) = some [[], ["bound"], ["bound"]] ∧
      ∃ m, (liftedScoresProgram.lowering .builtins true).2.artifacts.code = some m ∧
        m.inline.inline = m.inline ∧ m.inline.LoadsApart := by
  have hg : Graph.ofDeclarations liftedScores = .ok liftedScoresProgram.graph := rfl
  have hok : Session.failed? (liftedScoresProgram.lowering .builtins true).1 = none := by
    decide +kernel
  exact ⟨hg, hok, by decide +kernel, inline_idempotent hg hok⟩

end LoopModule
end LoopNest
