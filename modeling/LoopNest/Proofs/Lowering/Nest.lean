import LoopNest.Proofs.Lowering.Trace

/-! The code of a whole declaration: loops over the axes of its body, and the yield of its value
inside of them. -/
namespace LoopNest

/-- The parts of the code of a declaration. -/
structure Nest where
  openings : List Opening
  places : List (Place Reg)
  block : Block
  value : Reg
  yieldSpan : Span
  refs : List Reference

namespace Nest

def yield (n : Nest) : Instr := ⟨none, .yield n.value, n.yieldSpan⟩

def tree (n : Nest) : Block := Opening.wrap n.openings (n.block ++ .step n.yield .done)

/-- The parts belong together and compute a body. -/
structure For (n : Nest) (env : Lowering.Env) (inlined : Bool)
    (known : String → Option StampedExpr) (body : StampedExpr) : Prop where
  opens : Opens env.carriers [] [] body.axes n.openings n.places
  emits : Emits env inlined known n.places [body] n.block [n.value] n.refs

theorem instrs_tree (n : Nest) : n.tree.instrs =
    Opening.heads n.openings ++ (n.block.instrs ++ n.yield :: Opening.tails n.openings) := by
  rw [tree, Opening.instrs_wrap, Block.instrs_append, Block.instrs_step, Block.instrs_done,
    List.append_assoc]
  rfl

theorem For.regular {n : Nest} {env : Lowering.Env} {inlined : Bool}
    {known : String → Option StampedExpr} {body : StampedExpr} (h : n.For env inlined known body) :
    n.tree.Regular :=
  h.opens.regular (h.emits.regular.append ⟨rfl, trivial⟩)

/-- The instructions of a nest have its tree. -/
theorem For.ofInstrs?_eq {n : Nest} {env : Lowering.Env} {inlined : Bool}
    {known : String → Option StampedExpr} {body : StampedExpr} (h : n.For env inlined known body) :
    Block.ofInstrs? n.tree.instrs = some n.tree :=
  Block.ofInstrs?_instrs h.regular

end Nest

namespace Lowering

open Emission

variable {env : Env} {known : String → Option StampedExpr} {st : Emission}

/-- At the start all loops of a body are opened. -/
theorem opened_of_align {uses : List InputUse} (hm : env.carriers.Records uses) {body : StampedExpr}
    (hu : StampedExpr.inputUses body ⊆ uses) (stop : Span)
    (h : align env body.axes body .empty = .ok ((), st)) :
    ∃ os, Opened env.carriers stop .empty st [] body.axes os := by
  cases hb : body.axes with
  | nil =>
    rw [hb, align_covered _ List.nil_prefix] at h
    cases h
    exact ⟨[], .nil _ _ _ _⟩
  | cons a rest =>
    have hopen : openFrom env body body.axes 0 .empty = .ok ((), st) := by
      rw [hb] at h ⊢
      exact h
    rw [← hb]
    exact opened_of_openFrom hm hu stop hopen

theorem Opened.covers {carriers : CarrierMap} {stop : Span} {axes : Axes} {os : List Opening}
    (h : Opened carriers stop .empty st [] axes os) : axes <+: st.logical := by
  by_cases hne : axes = []
  · rw [hne]
    exact List.nil_prefix
  · rw [← logicalOf_places, h.opens.logicalOf_eq hne]
    exact List.prefix_refl _

theorem nest_of_lowerBody {uses : List InputUse} (hm : env.carriers.Records uses)
    {inputs : InputTable} {decls : List (String × Stamp)} {body : StampedExpr}
    (hc : body.Consistent inputs decls)
    (hk : ∀ name stamp, decls.lookup name = some stamp →
      ∃ body, known name = some body ∧ body.axes = stamp.axes)
    (hu : StampedExpr.inputUses body ⊆ uses) {log : List Lookup}
    (h : Logged.lowerBody env body .empty [] = (.ok ((), st), log)) :
    ∃ n : Nest, n.For env false known body ∧ n.refs = log.filterMap (Lookup.reference? env) ∧
      st.code = n.tree.instrs := by
  obtain ⟨_, st₁, _, halign, h₁⟩ := Logged.bind_eq_ok.1 h
  obtain ⟨haligned, loops, rfl, hloops⟩ :=
    (Law.holds_align (.refl env) trivial body.axes body).eq_ok halign
  obtain ⟨os, hos⟩ := opened_of_align hm hu body.span haligned
  obtain ⟨v, st₂, _, hlower, h₂⟩ := Logged.bind_eq_ok.1 h₁
  obtain ⟨b, new, hext, rfl, hb⟩ := traces hm hc hk hu _ _ _ _ _ hos.covers hlower
  cases h₂
  have hyield : Extends st₂ (st₂.emit none (.yield v) body.span) [⟨none, .yield v, body.span⟩] :=
    ⟨rfl, rfl, rfl⟩
  have hall : Extends .empty (st₂.finish v body.span) _ := hos.close (hext.trans hyield)
  refine ⟨⟨os, st₁.places, b, v, body.span, _⟩, ⟨hos.opens, hb⟩, ?_, ?_⟩
  · rw [List.filterMap_append, filterMap_reference? hloops, List.nil_append]
  · rw [Nest.tree, Opening.instrs_wrap, Block.instrs_append]
    exact hall.code

end Lowering

/-- The inputs that the code of a declaration reads, in the order of the declaration's text; with
their registers and the loops that are open. -/
def StampedDecl.references (d : StampedDecl) (env : Lowering.Env) : List Reference :=
  (Lowering.lookups env d.body).filterMap (Lowering.Lookup.reference? env)

/-- The code of a declaration is a nest. -/
theorem LoopCode.nest_ofDecl {d : StampedDecl} {env : Lowering.Env}
    {known : String → Option StampedExpr} {uses : List InputUse} (hm : env.carriers.Records uses)
    {inputs : InputTable} {decls : List (String × Stamp)} (hc : d.body.Consistent inputs decls)
    (hk : ∀ name stamp, decls.lookup name = some stamp →
      ∃ body, known name = some body ∧ body.axes = stamp.axes)
    (hu : StampedExpr.inputUses d.body ⊆ uses) {c : LoopCode}
    (h : LoopCode.ofDecl d env.carriers env.registry = .ok c) :
    ∃ n : Nest, n.For env false known d.body ∧ n.refs = d.references env ∧
      c = ⟨d.name, d.kind, d.stamp.axes, d.stamp.dtype, n.tree.instrs⟩ := by
  rw [ofDecl] at h
  split at h
  · cases h
  · rename_i st hst
    cases h
    have hlogged : Lowering.Logged.lowerBody env d.body .empty [] =
        (.ok ((), st), Lowering.lookups env d.body) :=
      Prod.ext ((Lowering.Logged.lowerBody_fst env d.body .empty []).trans hst) rfl
    obtain ⟨n, hn, hrefs, hcode⟩ := Lowering.nest_of_lowerBody hm hc hk hu hlogged
    exact ⟨n, hn, hrefs, by rw [← hcode]⟩

end LoopNest
