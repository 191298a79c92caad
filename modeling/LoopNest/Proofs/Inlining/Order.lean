import LoopNest.Proofs.Inlining.Module

/-! What the inlined form of a declaration depends on: its code, and the inlined form of the
declarations that it loads. -/
namespace LoopNest

/-- The declarations whose values code loads. -/
def LoopCode.loads (c : LoopCode) : List String := c.instrs.filterMap fun i => i.op.loaded?

namespace Nest

variable {n : Nest} {env : Lowering.Env} {inlined : Bool} {known : String → Option StampedExpr}
  {body : StampedExpr}

theorem For.of_loaded (h : n.For env inlined known body) {i : Instr}
    (hi : i ∈ n.tree.instrs) {name : String} (hname : i.op.loaded? = some name) :
    (known name).isSome ∧ i.result.isSome := by
  rw [n.instrs_tree, List.mem_append, List.mem_append, List.mem_cons] at hi
  rcases hi with hi | hi | rfl | hi
  · exact (h.opens.emitted known i hi).2 name hname
  · exact (h.emits.emitted i hi).2 name hname
  · cases hname
  · exact (Opening.tails_emitted n.openings known i hi).2 name hname

/-- Code loads declarations that are there. -/
theorem For.loads_subset {done : List StampedDecl}
    (h : n.For env inlined (StampedModule.bodies done) body) {c : LoopCode}
    (hc : c.instrs = n.tree.instrs) : c.loads ⊆ done.map StampedDecl.name := by
  intro name hmem
  obtain ⟨i, hi, hload⟩ := List.mem_filterMap.1 hmem
  obtain ⟨body', hbody⟩ := Option.isSome_iff_exists.1 (h.of_loaded (hc ▸ hi) hload).1
  obtain ⟨d, hd, hname, -⟩ := StampedModule.exists_of_bodies hbody
  exact List.mem_map.2 ⟨d, hd, hname⟩

end Nest

namespace StampedModule

/-- Code loads only what comes before it. -/
theorem Codes.ordered {env : Lowering.Env} {inlined : Bool} {done ds : List StampedDecl}
    {cs : List LoopCode} (h : Codes env inlined done ds cs) :
    Ordered LoopCode.name LoopCode.loads (done.map StampedDecl.name) cs := by
  induction h with
  | nil => trivial
  | @cons done ds d c cs n hname hn _ hinstrs _ _ ih =>
    refine ⟨fun name hmem => hn.loads_subset hinstrs hmem, ?_⟩
    rw [hname, ← List.map_singleton (f := StampedDecl.name), ← List.map_append]
    exact ih

end StampedModule

namespace Inlining

variable {done done' : List LoopCode}

theorem Site.splice?_congr (hn : (done.map LoopCode.name).Nodup)
    (hn' : (done'.map LoopCode.name).Nodup) (s : Site) {name : String}
    (h : (done.find? fun c => c.name == name) = done'.find? fun c => c.name == name) :
    s.splice? done name = s.splice? done' name := by
  rw [splice?, splice?, find?_reverse hn, find?_reverse hn', h]

theorem Site.inline_congr (hn : (done.map LoopCode.name).Nodup)
    (hn' : (done'.map LoopCode.name).Nodup) {is : List Instr}
    (h : ∀ name ∈ is.filterMap fun i => i.op.loaded?,
      (done.find? fun c => c.name == name) = done'.find? fun c => c.name == name) (s : Site) :
    s.inline done is = s.inline done' is := by
  induction is generalizing s with
  | nil => rfl
  | cons i is ih =>
    have hrest : ∀ name ∈ is.filterMap fun i => i.op.loaded?,
        (done.find? fun c => c.name == name) = done'.find? fun c => c.name == name := by
      intro name hmem
      obtain ⟨j, hj, hload⟩ := List.mem_filterMap.1 hmem
      exact h name (List.mem_filterMap.2 ⟨j, List.mem_cons_of_mem _ hj, hload⟩)
    have hfirst : s.replacement? done i = s.replacement? done' i := by
      rcases i with ⟨result, op, span⟩
      cases op with
      | loadDeclaration name axes dtype =>
        have hfind := h name (List.mem_filterMap.2 ⟨_, List.mem_cons_self, rfl⟩)
        cases result with
        | none => rfl
        | some r => simp only [replacement?, s.splice?_congr hn hn' hfind]
      | _ => rfl
    rw [inline, inline, hfirst]
    split
    · rw [ih hrest]
    · rw [ih hrest]

/-- The inlined form of a declaration after others. -/
def Inlines (done : List LoopCode) (c c' : LoopCode) : Prop := c' = inlineCode done c

theorem inlines_byName : ByName LoopCode.name LoopCode.name LoopCode.loads Inlines where
  title_eq := by
    rintro done c _ rfl
    rfl
  congr := by
    rintro done done' c _ hn hn' hfind rfl
    rw [Inlines, inlineCode, inlineCode, Site.inline_congr hn hn' hfind]

theorem succession_inlineFrom (done cs : List LoopCode) :
    Succession Inlines done cs (inlineFrom done cs) := by
  induction cs generalizing done with
  | nil => exact .nil
  | cons c cs ih => exact .cons rfl (ih _)

theorem eq_inlineFrom {cs cs' : List LoopCode} (h : Succession Inlines done cs cs') :
    cs' = inlineFrom done cs := by
  induction h with
  | nil => rfl
  | cons hstep _ ih =>
    cases hstep
    rw [inlineFrom, ih]

theorem inlineFrom_append (done cs cs' : List LoopCode) :
    inlineFrom done (cs ++ cs') =
      inlineFrom done cs ++ inlineFrom (done ++ inlineFrom done cs) cs' := by
  induction cs generalizing done with
  | nil => simp [inlineFrom]
  | cons c cs ih => simp [inlineFrom, ih]

/-- Declarations in another order have the same inlined forms. -/
theorem inlineFrom_perm {cs cs' : List LoopCode} (hp : cs.Perm cs')
    (hn : (cs.map LoopCode.name).Nodup) (ho : Ordered LoopCode.name LoopCode.loads [] cs)
    (ho' : Ordered LoopCode.name LoopCode.loads [] cs') :
    (inlineFrom [] cs).Perm (inlineFrom [] cs') := by
  obtain ⟨bs, hs, hperm⟩ :=
    inlines_byName.succession_perm (succession_inlineFrom [] cs) hp hn ho ho'
  rwa [← eq_inlineFrom hs]

end Inlining
end LoopNest
