import LoopNest.Proofs.Code.Visibility
import LoopNest.Proofs.Inlining.Pruning
import LoopNest.Proofs.Lowering.Nest

/-! The payload of a nest: its code without the loops over the axes of the body. Of what the loops
need only the loads of the inner collections are left. -/
namespace LoopNest

namespace Opening

/-- The loop as an open one. -/
def loop (o : Opening) : OpenLoop := ⟨o.axis, o.element, o.index, o.id⟩

/-- What openings introduce: their loads, and their loops. -/
theorem perm_heads {α : Type} (names : Instr → List α) (os : List Opening) :
    List.Perm ((heads os).flatMap names)
      ((os.flatMap loads).flatMap names ++ os.flatMap fun o => names o.start) := by
  induction os with
  | nil => exact .refl _
  | cons o os ih =>
    rw [heads_cons, List.flatMap_append, List.flatMap_cons, List.flatMap_cons, List.flatMap_append,
      List.flatMap_cons, List.append_assoc]
    refine List.Perm.append_left _ ((ih.append_left _).trans ?_)
    exact List.perm_append_comm_assoc _ _ _

end Opening

open Inlining

namespace Opens

variable {carriers : CarrierMap} {places inner : List (Place Reg)} {axes rest : Axes}
  {os : List Opening}

theorem isLoad (h : Opens carriers places axes rest os inner) :
    ∀ o ∈ os, ∀ i ∈ o.loads, isLoad i.op = true := by
  induction h with
  | nil => exact fun o ho => nomatch ho
  | cons _ _ hl _ ih => exact List.forall_mem_cons.2 ⟨hl.isLoad, ih⟩

theorem foldl_after (h : Opens carriers places axes rest os inner) (stack : List OpenLoop) :
    (Opening.heads os).foldl (fun stack i => OpenLoop.after stack i.op) stack =
      (os.map Opening.loop).reverse ++ stack := by
  induction h generalizing stack with
  | nil => rfl
  | @cons _ _ _ _ _ _ o os _ _ hl _ ih =>
    have hloads : o.loads.foldl (fun stack i => OpenLoop.after stack i.op) stack = stack := by
      have := (Block.Regular.steps hl.not_delimiter (b := .done) trivial).foldl_after stack
      rwa [Block.instrs_steps, Block.instrs_done, List.append_nil] at this
    rw [Opening.heads_cons, List.foldl_append, hloads, List.foldl_cons, ih, List.map_cons,
      List.reverse_cons, List.append_assoc]
    rfl

theorem axes_eq (h : Opens carriers places axes rest os inner) : os.map Opening.axis = rest := by
  induction h with
  | nil => rfl
  | cons _ ha _ _ ih => rw [List.map_cons, ha, ih]

/-- The loops that openings open are theirs. -/
theorem filterMap_loop? (h : Opens carriers places axes rest os inner) :
    (Opening.heads os).filterMap Instr.loop? = os.map Opening.loop := by
  induction h with
  | nil => rfl
  | @cons _ _ _ _ _ _ o os _ _ hl _ ih =>
    have hloads : o.loads.filterMap Instr.loop? = [] := by
      refine List.filterMap_eq_nil_iff.2 fun i hi => ?_
      have hload := hl.isLoad i hi
      rcases i with ⟨result, op, span⟩
      cases op with
      | loadInput | loadField => rfl
      | _ => cases hload
    have hstart : o.start.loop? = some o.loop := rfl
    rw [Opening.heads_cons, List.filterMap_append, hloads, List.nil_append,
      List.filterMap_cons_some hstart, ih, List.map_cons]

end Opens

namespace Nest

variable {n : Nest} {env : Lowering.Env} {inlined : Bool} {known : String → Option StampedExpr}
  {body : StampedExpr}

/-- The loops over the axes of the body, outermost first. -/
def context (n : Nest) : List OpenLoop := n.openings.map Opening.loop

/-- The loads of the collections of all loops but the outermost. -/
def loaded (n : Nest) : List Instr := n.openings.tail.flatMap Opening.loads

theorem For.context_axes (h : n.For env inlined known body) :
    n.context.map OpenLoop.axis = body.axes := by
  rw [context, List.map_map]
  exact h.opens.axes_eq

/-- The loops of the context are the first ones that the code opens. -/
theorem For.context_opened_first (h : n.For env inlined known body) :
    n.context <+: n.tree.instrs.filterMap Instr.loop? := by
  rw [instrs_tree, List.filterMap_append, h.opens.filterMap_loop?]
  exact List.prefix_append _ _

/-- At its yield, the loops of a nest are open. -/
theorem For.contextAtYield_eq (h : n.For env inlined known body) {c : LoopCode}
    (hc : c.instrs = n.tree.instrs) : c.contextAtYield = n.context := by
  have hbefore : c.instrs.takeWhile (fun i => !i.isYield) =
      Opening.heads n.openings ++ n.block.instrs := by
    have hall : ∀ i ∈ Opening.heads n.openings ++ n.block.instrs, (!i.isYield) = true := by
      refine List.forall_mem_append.2 ⟨fun i hi => ?_, fun i hi => ?_⟩
      · rw [h.opens.not_yield i hi]
        rfl
      · rw [h.emits.not_yield i hi]
        rfl
    rw [hc, instrs_tree, ← List.append_assoc, List.takeWhile_append_of_pos hall,
      List.takeWhile_cons_of_neg (by simp [yield, Instr.isYield, Op.opcode]), List.append_nil]
  rw [LoopCode.contextAtYield, hbefore, List.foldl_append, h.opens.foldl_after,
    h.emits.regular.foldl_after, List.append_nil, List.reverse_reverse]
  rfl

theorem delimits_of_not_delimiter {i : Instr} (h : i.op.isDelimiter = false)
    (context : List OpenLoop) : delimits context i = false := by
  rcases i with ⟨_, op, _⟩
  cases op with
  | loopStart | loopEnd => cases h
  | _ => rfl

/-- The loops inside of the body are none of its context. -/
theorem For.not_delimits (h : n.For env inlined known body) (hd : Distinct n.tree.instrs) :
    ∀ i ∈ n.block.instrs, delimits n.context i = false := by
  have hout : ∀ id ∈ n.block.instrs.flatMap Instr.starts,
      (n.context.any fun l => decide (l.id = id)) = false := by
    intro id hid
    refine List.any_eq_false.2 fun l hl heq => ?_
    obtain ⟨o, ho, rfl⟩ := List.mem_map.1 hl
    have heq : o.id = id := of_decide_eq_true heq
    have hloops := hd.loops
    rw [instrs_tree, List.flatMap_append, List.flatMap_append, List.nodup_append] at hloops
    refine hloops.2.2 id ?_ id (List.mem_append_left _ hid) rfl
    refine (Opening.perm_heads _ _).mem_iff.2 (List.mem_append_right _ ?_)
    exact List.mem_flatMap.2 ⟨o, ho, heq ▸ List.mem_singleton_self _⟩
  intro i hi
  cases hop : i.op with
  | loopStart axis collection element index id =>
    rw [delimits, hop]
    refine hout id (List.mem_flatMap.2 ⟨i, hi, ?_⟩)
    rw [Instr.starts, hop]
    exact List.mem_singleton_self id
  | loopEnd id =>
    rw [delimits, hop]
    exact hout id (h.emits.regular.mem_starts hi hop)
  | _ => exact delimits_of_not_delimiter (by rw [hop]; rfl) _

/-- Without the loops of the context, the loads of their collections are left. -/
theorem filter_heads {context : List OpenLoop} {os : List Opening}
    (hl : ∀ o ∈ os, ∀ i ∈ o.loads, isLoad i.op = true) (hos : ∀ o ∈ os, o.loop ∈ context) :
    (Opening.heads os).filter (fun i => !delimits context i) = os.flatMap Opening.loads := by
  induction os with
  | nil => rfl
  | cons o os ih =>
    have hstart : delimits context o.start = true :=
      List.any_eq_true.2 ⟨o.loop, hos o List.mem_cons_self, decide_eq_true rfl⟩
    have hloads : o.loads.filter (fun i => !delimits context i) = o.loads := by
      refine List.filter_eq_self.2 fun i hi => ?_
      rw [delimits_of_not_delimiter (Instr.of_isLoad (hl o List.mem_cons_self i hi)).1]
      rfl
    rw [Opening.heads_cons, List.filter_append, hloads, List.filter_cons_of_neg (by simp [hstart]),
      ih (fun o' ho' => hl o' (List.mem_cons_of_mem _ ho'))
        fun o' ho' => hos o' (List.mem_cons_of_mem _ ho'), List.flatMap_cons]

theorem filter_tails {context : List OpenLoop} {os : List Opening}
    (hos : ∀ o ∈ os, o.loop ∈ context) :
    (Opening.tails os).filter (fun i => !delimits context i) = [] := by
  refine List.filter_eq_nil_iff.2 fun i hi => ?_
  obtain ⟨o, ho, rfl⟩ := List.mem_map.1 (List.mem_reverse.1 hi)
  have hstop : delimits context o.stop = true :=
    List.any_eq_true.2 ⟨o.loop, hos o ho, decide_eq_true rfl⟩
  simp [hstop]

/-- The loads of the outermost collection stand before the context. -/
theorem fromContext_cons {o : Opening} (hl : ∀ i ∈ o.loads, isLoad i.op = true)
    (context : List OpenLoop) (is : List Instr) :
    fromContext (o.loop :: context) (o.loads ++ o.start :: is) = o.start :: is := by
  unfold fromContext
  dsimp only
  rw [List.dropWhile_append_of_pos, List.dropWhile_cons_of_neg]
  · simp [Opening.start, Opening.loop]
  · intro i hi
    rcases i with ⟨_, op, _⟩
    cases op with
    | loadInput | loadField => rfl
    | _ => cases hl _ hi

/-- What is left of the code from the outermost loop on. -/
theorem For.payload_eq (h : n.For env inlined known body) (hd : Distinct n.tree.instrs) :
    payload n.context n.tree.instrs = n.loaded ++ (n.block.instrs ++ [n.yield]) := by
  have hmem : ∀ o ∈ n.openings, o.loop ∈ n.context := fun o ho => List.mem_map.2 ⟨o, ho, rfl⟩
  have hblock : (n.block.instrs ++ n.yield :: Opening.tails n.openings).filter
      (fun i => !delimits n.context i) = n.block.instrs ++ [n.yield] := by
    have hkeep : n.block.instrs.filter (fun i => !delimits n.context i) = n.block.instrs := by
      refine List.filter_eq_self.2 fun i hi => ?_
      rw [h.not_delimits hd i hi]
      rfl
    rw [List.filter_append, hkeep, List.filter_cons_of_pos (by rfl), filter_tails hmem]
  have hloads := h.opens.isLoad
  rw [payload, instrs_tree]
  cases ho : n.openings with
  | nil =>
    rw [ho] at hblock
    rw [context, ho] at hblock ⊢
    rw [loaded, ho]
    exact hblock
  | cons o os =>
    rw [ho] at hmem hloads hblock
    have hfrom : fromContext n.context (Opening.heads (o :: os) ++
        (n.block.instrs ++ n.yield :: Opening.tails (o :: os))) = o.start :: (Opening.heads os ++
        (n.block.instrs ++ n.yield :: Opening.tails (o :: os))) := by
      rw [context, ho, Opening.heads_cons, List.append_assoc, List.cons_append]
      exact fromContext_cons (hloads o List.mem_cons_self) _ _
    have hstart : delimits n.context o.start = true :=
      List.any_eq_true.2 ⟨o.loop, hmem o List.mem_cons_self, decide_eq_true rfl⟩
    rw [hfrom, List.filter_cons_of_neg (by simp [hstart]), List.filter_append, hblock,
      filter_heads (fun o' ho' => hloads o' (List.mem_cons_of_mem _ ho'))
        fun o' ho' => hmem o' (List.mem_cons_of_mem _ ho'), loaded, ho, List.tail_cons]

end Nest
end LoopNest
