import LoopNest.Proofs.Code.Renaming
import LoopNest.Proofs.Inlining.Payload
import LoopNest.Proofs.Lowering.Relocation

/-! Splices: the code of a nest for use inside of other loops over the same axes. It is the code
inside of the nest's own loops, with new names, and with the elements of the loops around. -/
namespace LoopNest

open Inlining

namespace Renaming

theorem flatMap_map_instr {α : Type} (ρ : Renaming) {names : Instr → List α} {f : α → α}
    (h : ∀ i, names (ρ.instr i) = (names i).map f) (is : List Instr) :
    (is.map ρ.instr).flatMap names = (is.flatMap names).map f := by
  rw [List.flatMap_map, List.map_flatMap]
  simp only [h]

theorem isLoad_op (ρ : Renaming) (op : Op) : isLoad (ρ.op op) = isLoad op := by
  cases op <;> rfl

end Renaming

namespace Inlining

theorem extends_cover (ρ : Renaming) (i : Instr) :
    ρ.Extends (cover ρ i) ∧ (i.isYield = false → (cover ρ i).Covers i) := by
  rcases i with ⟨result, op, span⟩
  cases op with
  | yield value => exact ⟨(ρ.extends_coverReg value).1, fun h => nomatch h⟩
  | _ => exact ⟨(ρ.extends_coverInstr _).1, fun _ => (ρ.extends_coverInstr _).2⟩

theorem extends_foldl_cover (ρ : Renaming) (is : List Instr) :
    ρ.Extends (is.foldl cover ρ) ∧
      ∀ i ∈ is, i.isYield = false → (is.foldl cover ρ).Covers i := by
  induction is generalizing ρ with
  | nil => exact ⟨.refl ρ, fun i hi => nomatch hi⟩
  | cons i is ih =>
    obtain ⟨hone, hcovers⟩ := extends_cover ρ i
    obtain ⟨hrest, hall⟩ := ih (cover ρ i)
    exact ⟨hone.trans hrest, List.forall_mem_cons.2 ⟨fun hi => (hcovers hi).mono hrest, hall⟩⟩

/-- The names of loops, each with the one that takes its place. -/
def bound (pairs : List (OpenLoop × OpenLoop)) : List (Reg × Reg) :=
  pairs.flatMap fun p => [(p.1.element, p.2.element), (p.1.index, p.2.index)]

theorem bindLoops_eq (ρ : Renaming) (context site : List OpenLoop) :
    bindLoops ρ context site = { ρ with regs := (bound (context.zip site)).reverse ++ ρ.regs } := by
  unfold bindLoops
  induction context.zip site generalizing ρ with
  | nil => rfl
  | cons p pairs ih =>
    have hcons : bound (p :: pairs) =
        [(p.1.element, p.2.element), (p.1.index, p.2.index)] ++ bound pairs := rfl
    rw [List.foldl_cons, ih, hcons, List.reverse_append, List.append_assoc]
    rfl

theorem keys_bound {context site : List OpenLoop} (hlen : context.length = site.length) :
    (bound (context.zip site)).map Prod.fst = context.flatMap fun l => [l.element, l.index] := by
  nth_rewrite 2 [← List.map_fst_zip (Nat.le_of_eq hlen)]
  rw [bound, List.map_flatMap, List.flatMap_map]
  rfl

/-- What is carried over is part of the code. -/
theorem payload_sublist (context : List OpenLoop) (is : List Instr) :
    (payload context is).Sublist is := by
  refine List.filter_sublist.trans ?_
  unfold fromContext
  split
  · exact .refl is
  · dsimp only
    split
    · exact .refl is
    · exact List.dropWhile_sublist _

/-- The loops of a context are left out of the payload, with the registers that they define. -/
theorem not_mem_context {context : List OpenLoop} {is : List Instr}
    (hd : (is.flatMap Instr.defs).Nodup) (hcontext : context ⊆ is.filterMap Instr.loop?)
    {r : Reg} (hr : r ∈ (payload context is).flatMap Instr.defs) :
    r ∉ context.flatMap fun l => [l.element, l.index] := by
  intro hmem
  obtain ⟨l, hl, hreg⟩ := List.mem_flatMap.1 hmem
  obtain ⟨⟨result, op, span⟩, hi, hloop⟩ := List.mem_filterMap.1 (hcontext hl)
  obtain ⟨j, hj, hdef⟩ := List.mem_flatMap.1 hr
  have hkept := (List.mem_filter.1 hj).2
  cases op with
  | loopStart axis collection element index id =>
    cases hloop
    have hsame := eq_of_mem_names hd hi ((payload_sublist context is).subset hj)
      (List.mem_append_right _ hreg) hdef
    have hdelimits : delimits context j = true := by
      rw [← hsame]
      exact List.any_eq_true.2 ⟨_, hl, decide_eq_true rfl⟩
    rw [hdelimits] at hkept
    cases hkept
  | _ => cases hloop

/-- The payload of code with distinct names has new names, each introduced once. -/
theorem introduces_payload {is : List Instr} (hd : Distinct is) {context : List OpenLoop}
    (hcontext : context ⊆ is.filterMap Instr.loop?) (site : List OpenLoop) (c : CodeCounter) :
    Introduces (((payload context is).filter fun i => !i.isYield).map
        ((payload context is).foldl cover (bindLoops (.empty c) context site)).instr) c
      ((payload context is).foldl cover (bindLoops (.empty c) context site)).counter := by
  have hsub : ((payload context is).filter fun i => !i.isYield).Sublist (payload context is) :=
    List.filter_sublist
  have hnames := hd.sublist (hsub.trans (payload_sublist context is))
  obtain ⟨hext, hcovers⟩ :=
    extends_foldl_cover (bindLoops (.empty c) context site) (payload context is)
  set ρ := (payload context is).foldl cover (bindLoops (.empty c) context site)
  have hcovered : ∀ i ∈ (payload context is).filter fun i => !i.isYield, ρ.Covers i := by
    intro i hi
    obtain ⟨hmem, hyield⟩ := List.mem_filter.1 hi
    exact hcovers i hmem (by simpa using hyield)
  rw [bindLoops_eq] at hext
  refine ⟨?_, ?_, ?_⟩
  · rw [ρ.flatMap_map_instr fun i => ρ.defs_instr i, List.map_map]
    refine hext.regs.drawn hnames.regs (fun r hr => ?_) fun r hr hmem => ?_
    · obtain ⟨i, hi, hdef⟩ := List.mem_flatMap.1 hr
      exact (hcovered i hi).regs r hdef
    · -- a register of the site takes the place of one of the context, which the payload leaves out
      obtain ⟨q, hq, rfl⟩ := List.mem_map.1 hmem
      rw [Renaming.empty, List.append_nil, List.mem_reverse] at hq
      obtain ⟨p, hp, hq⟩ := List.mem_flatMap.1 hq
      refine not_mem_context hd.regs hcontext ((hsub.flatMap _).subset hr) ?_
      refine List.mem_flatMap.2 ⟨p.1, (List.of_mem_zip hp).1, ?_⟩
      exact List.mem_map.2 ⟨q, hq, rfl⟩
  · rw [ρ.flatMap_map_instr fun i => ρ.starts_instr i, List.map_map]
    refine hext.loops.drawn hnames.loops (fun l hl => ?_) fun l _ => List.not_mem_nil
    obtain ⟨i, hi, hstart⟩ := List.mem_flatMap.1 hl
    exact (hcovered i hi).loops l hstart
  · rw [ρ.flatMap_map_instr fun i => ρ.declares_instr i, List.map_map]
    refine hext.accs.drawn hnames.accs (fun a ha => ?_) fun a _ => List.not_mem_nil
    obtain ⟨i, hi, hacc⟩ := List.mem_flatMap.1 ha
    exact (hcovered i hi).accs a hacc

end Inlining

namespace Nest

variable {n : Nest} {env : Lowering.Env} {inlined : Bool} {known : String → Option StampedExpr}
  {body : StampedExpr}

/-- The registers of the loops differ from each other. -/
theorem nodup_starts (hd : Distinct n.tree.instrs) :
    (n.openings.flatMap fun o => o.start.defs).Nodup := by
  have hall := hd.regs
  rw [instrs_tree, List.flatMap_append] at hall
  have hheads := (Opening.perm_heads Instr.defs n.openings).nodup_iff.1 hall.of_append_left
  exact hheads.of_append_right

/-- Without the yield, the payload is the loads of the inner collections and the block. -/
theorem For.filter_payload (h : n.For env inlined known body) (hd : Distinct n.tree.instrs) :
    (payload n.context n.tree.instrs).filter (fun i => !i.isYield) =
      n.loaded ++ n.block.instrs := by
  have hkeep : ∀ i ∈ n.loaded ++ n.block.instrs, (!i.isYield) = true := by
    refine List.forall_mem_append.2 ⟨fun i hi => ?_, fun i hi => ?_⟩
    · obtain ⟨o, ho, hload⟩ := List.mem_flatMap.1 hi
      rw [(Instr.of_isLoad (h.opens.isLoad o (List.mem_of_mem_tail ho) i hload)).2]
      rfl
    · rw [h.emits.not_yield i hi]
      rfl
  rw [h.payload_eq hd, ← List.append_assoc, List.filter_append, List.filter_eq_self.2 hkeep,
    List.filter_cons_of_neg (by simp [yield, Instr.isYield, Op.opcode]), List.filter_nil,
    List.append_nil]

/-- Where the registers of the loads keep apart from all others, the loads are pruned, and nothing
else is. -/
theorem For.pruneLoads_eq (h : n.For env inlined known body) (ρ : Renaming)
    (hdead : ∀ r ∈ n.loaded.flatMap Instr.defs,
      ρ.reg r ∉ (Place.elements n.places ++ n.block.defs).map ρ.reg) :
    pruneLoads (ρ.reg n.value) ((n.loaded ++ n.block.instrs).map ρ.instr) =
      (n.block.map ρ.instr).instrs := by
  have hrenamed := h.emits.rename ρ
  have hreads : reads (n.block.map ρ.instr).instrs ++ [ρ.reg n.value] ⊆
      (Place.elements n.places ++ n.block.defs).map ρ.reg := by
    have hdefs : (n.block.map ρ.instr).defs = n.block.defs.map ρ.reg := by
      rw [Block.defs, Block.instrs_map]
      exact ρ.flatMap_map_instr (fun i => ρ.defs_instr i) _
    rw [List.map_append, ← hdefs, ← ρ.elements_map_place]
    refine List.append_subset.2 ⟨?_, fun r hr => ?_⟩
    · exact (hrenamed.scoped (List.Subset.refl _) []).inputs_subset hrenamed.regular
    · exact List.mem_append.2 (hrenamed.results_mem r hr).symm
  have hkept : Kept (n.block.map ρ.instr).instrs [ρ.reg n.value] :=
    hrenamed.kept (List.Subset.refl _)
  rw [pruneLoads, List.map_append, ← Block.instrs_map, List.foldr_append, hkept,
    foldr_keepLive_of_dead, List.append_nil]
  intro i hi
  obtain ⟨j, hj, rfl⟩ := List.mem_map.1 hi
  obtain ⟨o, ho, hload⟩ := List.mem_flatMap.1 hj
  refine ⟨?_, fun r hr hlive => ?_⟩
  · exact (ρ.isLoad_op j.op).trans (h.opens.isLoad o (List.mem_of_mem_tail ho) j hload)
  · rw [ρ.defs_instr] at hr
    obtain ⟨q, hq, rfl⟩ := List.mem_map.1 hr
    exact hdead q (List.mem_flatMap.2 ⟨j, hj, hq⟩) (hreads hlive)

/-- The renaming of a payload: elements become those of the loops around, and all registers that
the payload defines are new. -/
structure Relocates (n : Nest) (site : List OpenLoop) (c : CodeCounter) (ρ : Renaming) : Prop where
  elements : (n.openings.map fun o => ρ.reg o.element) = site.map OpenLoop.element
  regs : Drawn (((n.loaded ++ n.block.instrs).flatMap Instr.defs).map fun r => (ρ.reg r).index)
    c.reg ρ.counter.reg

theorem For.relocates (h : n.For env inlined known body) (hd : Distinct n.tree.instrs)
    {site : List OpenLoop} (hlen : n.context.length = site.length) (c : CodeCounter) :
    n.Relocates site c ((payload n.context n.tree.instrs).foldl cover
      (bindLoops (.empty c) n.context site)) := by
  have hnames := (introduces_payload hd h.context_opened_first.subset site c).regs
  obtain ⟨hext, -⟩ := extends_foldl_cover (bindLoops (.empty c) n.context site)
    (payload n.context n.tree.instrs)
  set ρ := (payload n.context n.tree.instrs).foldl cover (bindLoops (.empty c) n.context site)
  rw [bindLoops_eq, Renaming.empty, List.append_nil] at hext
  refine ⟨?_, ?_⟩
  · have hkeys : ((bound (n.context.zip site)).reverse.map Prod.fst).Nodup := by
      rw [List.map_reverse, keys_bound hlen, context, List.flatMap_map]
      exact List.nodup_reverse.2 (n.nodup_starts hd)
    have hpair : ∀ p ∈ n.context.zip site, ρ.reg p.1.element = p.2.element := by
      intro p hp
      have hmem : (p.1.element, p.2.element) ∈ (bound (n.context.zip site)).reverse :=
        List.mem_reverse.2 (List.mem_flatMap.2 ⟨p, hp, List.mem_cons_self⟩)
      rw [Renaming.reg, hext.regs.lookup_eq (List.mem_map.2 ⟨_, hmem, rfl⟩),
        lookup_eq_some_of_nodup hkeys hmem]
      rfl
    calc (n.openings.map fun o => ρ.reg o.element)
      _ = n.context.map fun l => ρ.reg l.element := by
        rw [context, List.map_map]
        rfl
      _ = (n.context.zip site).map fun p => ρ.reg p.1.element := by
        nth_rewrite 1 [← List.map_fst_zip (Nat.le_of_eq hlen)]
        rw [List.map_map]
        rfl
      _ = (n.context.zip site).map fun p => p.2.element := List.map_congr_left hpair
      _ = site.map OpenLoop.element := by
        nth_rewrite 2 [← List.map_snd_zip (Nat.le_of_eq hlen.symm)]
        rw [List.map_map]
        rfl
  · rwa [h.filter_payload hd, ρ.flatMap_map_instr fun i => ρ.defs_instr i, List.map_map] at hnames

/-- What a nest becomes at a site. The names of the loops around are older than the new ones. -/
theorem For.splice_eq (h : n.For env inlined known body) (hd : Distinct n.tree.instrs)
    {callee : LoopCode} (hc : callee.instrs = n.tree.instrs) {site : List OpenLoop}
    (hlen : n.context.length = site.length) {c : CodeCounter}
    (hsite : ∀ l ∈ site, l.element.index < c.reg) :
    ∃ ρ : Renaming, n.Relocates site c ρ ∧
      splice callee n.context site c =
        ⟨(n.block.map ρ.instr).instrs, ρ.reg n.value, ρ.counter⟩ := by
  have hρ := h.relocates hd hlen c
  set ρ := (payload n.context n.tree.instrs).foldl cover (bindLoops (.empty c) n.context site)
    with hdef
  have hyield : yielded? (payload n.context n.tree.instrs) = some n.value := by
    rw [h.payload_eq hd, ← List.append_assoc, yielded?, List.foldl_append]
    rfl
  refine ⟨ρ, hρ, ?_⟩
  have hsplice : splice callee n.context site c =
      ⟨pruneLoads (ρ.reg n.value) ((n.loaded ++ n.block.instrs).map ρ.instr), ρ.reg n.value,
        ρ.counter⟩ := by
    simp only [splice, hc, hyield, h.filter_payload hd, hdef]
  rw [hsplice, h.pruneLoads_eq ρ]
  -- a register of a load is neither an element of the loops around nor defined again
  intro r hr hmem
  obtain ⟨q, hq, heq⟩ := List.mem_map.1 hmem
  have hregs := hρ.regs
  rw [List.flatMap_append, List.map_append] at hregs
  have hload : (ρ.reg r).index ∈ (n.loaded.flatMap Instr.defs).map fun r => (ρ.reg r).index :=
    List.mem_map.2 ⟨r, hr, rfl⟩
  rcases List.mem_append.1 hq with hq | hq
  · have helement : ρ.reg q ∈ site.map OpenLoop.element := by
      rw [h.opens.elements_eq.2, Place.elements_nil, List.append_nil, List.mem_reverse] at hq
      obtain ⟨o, ho, rfl⟩ := List.mem_map.1 hq
      exact hρ.elements ▸ List.mem_map.2 ⟨o, ho, rfl⟩
    obtain ⟨l, hl, hl'⟩ := List.mem_map.1 helement
    have hlt := hsite l hl
    rw [hl', heq] at hlt
    have hle := (hregs.bounds _ (List.mem_append_left _ hload)).1
    omega
  · refine (List.nodup_append.1 hregs.nodup).2.2 _ hload (ρ.reg q).index ?_ ?_
    · exact List.mem_map.2 ⟨q, hq, rfl⟩
    · rw [heq]

end Nest
end LoopNest
