import LoopNest.Proofs.Lowering.Law

/-! What lowering reads. The numbers of nodes play no part in it, and where it succeeds, more
carriers and more functions change nothing. -/
namespace LoopNest

theorem Carrier.choose_unnumbered (axes : Axes) (e : StampedExpr) (carriers : CarrierMap) :
    choose axes e.unnumbered carriers = choose axes e carriers := by
  simp only [choose, anchors, StampedExpr.inputUses_unnumbered, StampedExpr.span_unnumbered]

namespace Lowering

section Numbers

variable (env : Env)

theorem openLoop_unnumbered (e : StampedExpr) (logical : Axes) :
    openLoop env e.unnumbered logical = openLoop env e logical := by
  simp only [openLoop, Carrier.choose_unnumbered, StampedExpr.span_unnumbered]

theorem align_unnumbered (target : Axes) (e : StampedExpr) :
    align env target e.unnumbered = align env target e := by
  simp only [align, openFrom, openLoop_unnumbered, StampedExpr.span_unnumbered]

theorem reduction_unnumbered (m : Mark) (op : String) (reduced : Axes) (arg : StampedExpr)
    (argument : Lower Reg) :
    reduction env m.unnumbered op reduced arg.unnumbered argument =
      reduction env m op reduced arg argument := by
  have halign : align env m.stamp.axes (.reduce m.unnumbered op reduced arg.unnumbered) =
      align env m.stamp.axes (.reduce m op reduced arg) :=
    align_unnumbered env m.stamp.axes (.reduce m op reduced arg)
  simp only [reduction, openReduction, openLoop_unnumbered, StampedExpr.axes_unnumbered,
    Mark.stamp_unnumbered, Mark.span_unnumbered, halign]

theorem lowerAll_unnumbered {es : List StampedExpr}
    (h : ∀ e ∈ es, lower env e.unnumbered = lower env e) :
    lowerAll env (es.map StampedExpr.unnumbered) = lowerAll env es := by
  induction es with
  | nil => rfl
  | cons e es ih =>
    obtain ⟨he, hes⟩ := List.forall_mem_cons.1 h
    simp only [List.map_cons, lowerAll, he, ih hes]

theorem lower_unnumbered (e : StampedExpr) : lower env e.unnumbered = lower env e := by
  induction e using Expr.induction with
  | constant | input | ref => rfl
  | call m func args ih =>
    simp only [StampedExpr.unnumbered_call, lower, lowerAll_unnumbered env ih,
      Mark.stamp_unnumbered, Mark.span_unnumbered]
  | tuple m elems ih =>
    simp only [StampedExpr.unnumbered_tuple, lower, lowerAll_unnumbered env ih,
      Mark.stamp_unnumbered, Mark.span_unnumbered]
  | select m c t f hc ht hf =>
    have halign := align_unnumbered env m.stamp.axes (.select m c t f)
    rw [StampedExpr.unnumbered_select] at halign ⊢
    simp only [lower, hc, ht, hf, halign, Mark.stamp_unnumbered, Mark.span_unnumbered]
  | reduce m op reduced arg ih =>
    rw [StampedExpr.unnumbered_reduce, lower, lower, ih, reduction_unnumbered]

end Numbers

end Lowering

/-- The numbers of a declaration play no part in its code. -/
theorem LoopCode.ofDecl_unnumbered (d : StampedDecl) (carriers : CarrierMap) (registry : Registry) :
    ofDecl d.unnumbered carriers registry = ofDecl d carriers registry := by
  have hbody : Lowering.lowerBody ⟨carriers, registry⟩ d.body.unnumbered =
      Lowering.lowerBody ⟨carriers, registry⟩ d.body := by
    simp only [Lowering.lowerBody, Lowering.align_unnumbered, Lowering.lower_unnumbered,
      StampedExpr.axes_unnumbered, StampedExpr.span_unnumbered]
  simp only [ofDecl, StampedDecl.unnumbered, hbody]

/-- Code stays the same when there are more carriers and functions. -/
theorem LoopCode.ofDecl_within {carriers carriers' : CarrierMap} {registry registry' : Registry}
    (hc : carriers.Within carriers') (hr : registry.Within registry') {d : StampedDecl}
    {c : LoopCode} (h : ofDecl d carriers registry = .ok c) :
    ofDecl d carriers' registry' = .ok c := by
  have hwithin : Lowering.Env.Within ⟨carriers, registry⟩ ⟨carriers', registry'⟩ := ⟨hc, hr⟩
  rw [ofDecl] at h ⊢
  split at h
  · cases h
  · rename_i st hst
    rw [StateT.run, Lowering.lowerBody_within hwithin hst]
    exact h

end LoopNest
