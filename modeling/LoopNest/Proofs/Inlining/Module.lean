import LoopNest.Proofs.Inlining.Names
import LoopNest.Proofs.Lowering.Module

/-! Inlining of a module: each declaration is again a nest for its body, with the ones before it in
place of some loads, and with distinct names. -/
namespace LoopNest

namespace Inlining

variable {env : Lowering.Env} {known : String → Option StampedExpr} {done : List LoopCode}

/-- An inlined declaration is a nest for the same body. -/
theorem nest_inlineCode (hdone : Finished env known done) {c : LoopCode} {n : Nest}
    {body : StampedExpr} (hn : n.For env false known body) (hc : c.instrs = n.tree.instrs)
    (hd : Distinct c.instrs) :
    ∃ n' : Nest, n'.For env true known body ∧ (inlineCode done c).instrs = n'.tree.instrs := by
  let s : Site := ⟨.past c.instrs, [], []⟩
  have hready : s.Ready [] n.tree := by
    rw [hc] at hd
    refine ⟨rfl, ⟨hd.regs, hd.accs, fun r hr => nomatch hr⟩, fun r hr => ⟨List.not_mem_nil, ?_⟩⟩
    rcases hr with hr | hr
    · cases hr
    · rw [Block.defs, ← hc] at hr
      exact CodeCounter.reg_lt_past r hr
  have hyield : Site.Rewrites done n.places (n.block ++ .step n.yield .done) fun b' _ =>
      ∃ b v refs, b' = b ++ .step ⟨none, .yield v, n.yieldSpan⟩ .done ∧
        Emits env true known n.places [body] b [v] refs := by
    refine (Site.Transforms.put hn.emits (Site.transforms hdone hn.emits hn.stack) rfl rfl).mono ?_
    rintro _ s' ⟨b, refs, rfl, he, -⟩
    exact ⟨b, s'.reg n.value, refs, rfl, he⟩
  obtain ⟨_, s', heq, -, _, rfl, b, v, refs, rfl, he⟩ :=
    Site.Rewrites.wrap hn.opens hyield s hready
  refine ⟨⟨n.openings, n.places, b, v, n.yieldSpan, refs⟩, ⟨hn.opens, he⟩, ?_⟩
  have := heq []
  rw [List.append_nil, Site.inline, List.append_nil] at this
  change s.inline done c.instrs = _
  rw [hc]
  exact this

/-- One more declaration is done. -/
theorem Finished.append {done' : List StampedDecl} {d : StampedDecl} {c : LoopCode} {n : Nest}
    (h : Finished env (StampedModule.bodies done') done)
    (hnames : done.map LoopCode.name = done'.map StampedDecl.name)
    (hnew : d.name ∉ done'.map StampedDecl.name) (hname : c.name = d.name)
    (hn : n.For env true (StampedModule.bodies done') d.body) (hc : c.instrs = n.tree.instrs)
    (hd : Distinct c.instrs) :
    Finished env (StampedModule.bodies (done' ++ [d])) (done ++ [c]) := by
  have hmono : ∀ name body, StampedModule.bodies done' name = some body →
      StampedModule.bodies (done' ++ [d]) name = some body := by
    intro name body hk
    obtain ⟨d', hfind, hbody⟩ := Option.map_eq_some_iff.1 hk
    rw [StampedModule.bodies, List.find?_append, hfind, Option.some_or, Option.map_some, hbody]
  intro name callee hfind
  rw [List.reverse_append, List.reverse_singleton, List.singleton_append]
  rw [List.find?_append] at hfind
  cases hold : done.find? fun c => c.name == name with
  | some callee' =>
    rw [hold, Option.some_or] at hfind
    cases hfind
    have hne : (c.name == name) = false := by
      refine beq_false_of_ne fun he => hnew ?_
      have hcallee : callee.name = name := by simpa using List.find?_some hold
      rw [← hname, he, ← hnames, ← hcallee]
      exact List.mem_map.2 ⟨callee, List.mem_of_find?_eq_some hold, rfl⟩
    obtain ⟨hlast, n', body, hk, hn', hc', hd'⟩ := h name callee hold
    rw [List.find?_cons_of_neg (by simp [hne])]
    exact ⟨hlast, n', body, hmono name body hk, ⟨hn'.opens, hn'.emits.mono hmono⟩, hc', hd'⟩
  | none =>
    rw [hold, Option.none_or, List.find?_singleton] at hfind
    split at hfind
    · rename_i he
      cases hfind
      have hbody : StampedModule.bodies (done' ++ [d]) name = some d.body := by
        have hnone : done'.find? (fun d => d.name == name) = none := by
          refine List.find?_eq_none.2 fun d' hd' hd'' => hnew ?_
          have hname' : d'.name = d.name := by
            rw [← hname, beq_iff_eq.1 he, beq_iff_eq.1 hd'']
          exact hname' ▸ List.mem_map.2 ⟨d', hd', rfl⟩
        rw [hname] at he
        rw [StampedModule.bodies, List.find?_append, hnone, Option.none_or, List.find?_singleton,
          if_pos he]
        rfl
      exact ⟨List.find?_cons_of_pos he, n, d.body, hbody, ⟨hn.opens, hn.emits.mono hmono⟩, hc, hd⟩
    · cases hfind

/-- One more declaration is done once it is inlined. -/
theorem Finished.append_inlineCode {done' : List StampedDecl} {d : StampedDecl} {c : LoopCode}
    {n : Nest} (h : Finished env (StampedModule.bodies done') done)
    (hnames : done.map LoopCode.name = done'.map StampedDecl.name)
    (hnew : d.name ∉ done'.map StampedDecl.name) (hname : c.name = d.name)
    (hn : n.For env false (StampedModule.bodies done') d.body) (hc : c.instrs = n.tree.instrs)
    (hd : Distinct c.instrs) :
    Finished env (StampedModule.bodies (done' ++ [d])) (done ++ [inlineCode done c]) := by
  obtain ⟨n', hn', hc'⟩ := nest_inlineCode h hn hc hd
  exact h.append hnames hnew hname hn' hc' (distinct_inlineCode h.single hd)

end Inlining

namespace StampedModule

open Inlining

theorem name_not_mem {done ds : List StampedDecl} {d : StampedDecl}
    (h : ((done ++ d :: ds).map StampedDecl.name).Nodup) : d.name ∉ done.map StampedDecl.name := by
  intro hmem
  rw [List.map_append, List.map_cons, List.nodup_append] at h
  exact h.2.2 d.name hmem d.name List.mem_cons_self rfl

theorem codes_inlineFrom {env : Lowering.Env} {done ds : List StampedDecl}
    {cs done' : List LoopCode}
    (h : Codes env false done ds cs) (hnames : ((done ++ ds).map StampedDecl.name).Nodup)
    (hdone : Finished env (bodies done) done')
    (hsame : done'.map LoopCode.name = done.map StampedDecl.name) :
    Codes env true done ds (inlineFrom done' cs) := by
  induction h generalizing done' with
  | nil => exact .nil
  | @cons done ds d c cs n hname hn _ hc hd _ ih =>
    obtain ⟨n', hn', hc'⟩ := nest_inlineCode hdone hn hc hd
    have hnew := name_not_mem hnames
    have hname' : (inlineCode done' c).name = d.name := hname
    rw [List.append_cons] at hnames
    refine .cons hname' hn' (fun hf => nomatch hf) hc' (distinct_inlineCode hdone.single hd)
      (ih hnames ?_ ?_)
    · exact hdone.append_inlineCode hsame hnew hname hn hc hd
    · rw [List.map_append, List.map_append, hsame, List.map_singleton, List.map_singleton, hname']

/-- Inlining makes a nest of each declaration again. -/
theorem codes_inline {env : Lowering.Env} {ds : List StampedDecl} {m : LoopModule}
    (h : Codes env false [] ds m.decls) (hnames : (ds.map StampedDecl.name).Nodup) :
    Codes env true [] ds m.inline.decls :=
  codes_inlineFrom h hnames (fun _ _ hfind => nomatch hfind) rfl

end StampedModule
end LoopNest
