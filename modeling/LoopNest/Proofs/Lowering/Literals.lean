import LoopNest.Proofs.Lowering.Module
import LoopNest.Proofs.Pipeline
import LoopNest.Proofs.Stamp.Outcome

/-! The literals in code. The constants are those of the source, in order, whatever the functions
are; only the values that reductions start from depend on the functions. -/
namespace LoopNest

/-- The constant that an instruction loads. -/
def Instr.constant? (i : Instr) : Option Literal :=
  match i.op with
  | .constant v _ => some v
  | _ => none

/-- An accumulator starts from an identity of its type. -/
def Instr.StartsFromIdentity (i : Instr) : Prop :=
  ∀ acc op v dtype, i.op = .declareAccumulator acc op v dtype →
    ∃ identity : Identity, identity.literal? dtype = some v

/-- The constants in code, and where its accumulators start. -/
structure LoopCode.Literals (is : List Instr) (vs : List Literal) : Prop where
  constants : is.filterMap Instr.constant? = vs
  identities : ∀ i ∈ is, i.StartsFromIdentity

namespace LoopCode.Literals

variable {is js : List Instr} {vs ws : List Literal}

theorem nil : Literals [] [] := ⟨rfl, List.forall_mem_nil _⟩

theorem append (h : Literals is vs) (h' : Literals js ws) : Literals (is ++ js) (vs ++ ws) :=
  ⟨by rw [List.filterMap_append, h.constants, h'.constants],
    List.forall_mem_append.2 ⟨h.identities, h'.identities⟩⟩

/-- An instruction without a literal. -/
theorem plain {i : Instr} (hi : i.constant? = none) (hs : i.declares = []) : Literals [i] [] := by
  refine ⟨by simp [hi], List.forall_mem_singleton.2 fun acc op v dtype h => ?_⟩
  rw [Instr.declares, h] at hs
  cases hs

theorem of_isLoad (h : ∀ i ∈ is, Inlining.isLoad i.op = true) : Literals is [] := by
  induction is with
  | nil => exact nil
  | cons i is ih =>
    obtain ⟨hi, his⟩ := List.forall_mem_cons.1 h
    refine (plain ?_ ?_ : Literals [i] []).append (ih his)
    all_goals
      rcases i with ⟨_, op, _⟩
      cases op with
      | loadInput | loadField => rfl
      | _ => cases hi

theorem heads {carriers : CarrierMap} {places inner : List (Place Reg)} {axes rest : Axes}
    {os : List Opening} (h : Opens carriers places axes rest os inner) :
    Literals (Opening.heads os) [] := by
  induction h with
  | nil => exact nil
  | cons _ _ hl _ ih =>
    rw [Opening.heads_cons]
    exact (of_isLoad hl.isLoad).append ((plain rfl rfl).append ih)

theorem tails (os : List Opening) : Literals (Opening.tails os) [] := by
  induction os with
  | nil => exact nil
  | cons o os ih =>
    rw [Opening.tails_cons]
    exact ih.append (plain rfl rfl)

end LoopCode.Literals

namespace Emits

open LoopCode

variable {env : Lowering.Env} {known : String → Option StampedExpr} {places : List (Place Reg)}

/-- Code that is not inlined has the constants of its expressions. -/
theorem literals {es : List StampedExpr} {b : Block} {rs : List Reg} {refs : List Reference}
    (h : Emits env false known places es b rs refs) :
    Literals b.instrs (es.flatMap Expr.constants) := by
  have hput {a b : Block} {i : Instr} {vs ws : List Literal} (ha : Literals a.instrs vs)
      (hi : Literals [i] []) (hb : Literals b.instrs ws) :
      Literals (a ++ .step i b).instrs (vs ++ ws) := by
    rw [Block.instrs_append]
    exact ha.append (hi.append hb)
  induction h with
  | nil => exact .nil
  | @constant places m v es b r rs refs span _ ih =>
    have hconstant : Literals [⟨some r, .constant v m.stamp.dtype, span⟩] [v] :=
      ⟨rfl, List.forall_mem_singleton.2 fun _ _ _ _ h => nomatch h⟩
    exact hconstant.append ih
  | input hl _ ih =>
    rw [Block.instrs_steps]
    exact (Literals.of_isLoad hl.isLoad).append ih
  | load hk _ _ _ ih => exact (Literals.plain rfl rfl).append ih
  -- a declaration that is computed in place belongs to inlined code
  | compute hinlined => cases hinlined
  | call _ _ ihargs ih =>
    rw [List.flatMap_cons, Expr.constants_call]
    exact hput ihargs (.plain rfl rfl) ih
  | tuple _ _ ihargs ih =>
    rw [List.flatMap_cons, Expr.constants_tuple]
    exact hput ihargs (.plain rfl rfl) ih
  | @select places m c t f es b₁ b₂ r rc rt rf rs refs₁ refs₂ span _ _ ihargs ih =>
    have hargs :
        [c, t, f].flatMap Expr.constants = (Expr.select m c t f : StampedExpr).constants := by
      simp
    rw [List.flatMap_cons, ← hargs]
    exact hput ihargs (.plain rfl rfl) ih
  | @reduce places inner m op reduced arg es os b₁ b₂ v r acc start rs refs₁ refs₂ s₁ s₂ s₃ _ _ _
      hidentity ho _ _ iharg ih =>
    have hdeclare : Literals [⟨none, .declareAccumulator acc op start m.stamp.dtype, s₁⟩] [] := by
      refine ⟨rfl, List.forall_mem_singleton.2 fun _ _ _ _ h => ?_⟩
      cases h
      obtain ⟨f, identity, -, -, hliteral⟩ := Lowering.identity_eq_ok hidentity
      exact ⟨identity, hliteral⟩
    have hloop : Literals
        (Opening.wrap os (b₁ ++ .step ⟨none, .accumulate acc op v, s₂⟩ .done)).instrs
        arg.constants := by
      have hbody : Literals [⟨none, .accumulate acc op v, s₂⟩] [] := .plain rfl rfl
      have hall := (Literals.heads ho).append ((iharg.append hbody).append (.tails os))
      simpa [Opening.instrs_wrap] using hall
    rw [List.flatMap_cons, Expr.constants_reduce]
    exact hdeclare.append (hput hloop (.plain rfl rfl) ih)

end Emits

/-- The code of a declaration has the constants of its body. -/
theorem Nest.For.literals {n : Nest} {env : Lowering.Env} {known : String → Option StampedExpr}
    {body : StampedExpr} (h : n.For env false known body) :
    LoopCode.Literals n.tree.instrs body.constants := by
  have hyield : LoopCode.Literals [n.yield] [] := .plain rfl rfl
  have hall := (LoopCode.Literals.heads h.opens).append
    (h.emits.literals.append (hyield.append (.tails n.openings)))
  simpa [Nest.instrs_tree] using hall

theorem StampedModule.Codes.literals {env : Lowering.Env} {done ds : List StampedDecl}
    {cs : List LoopCode} (h : Codes env false done ds cs) :
    List.Forall₂ (fun d c => LoopCode.Literals c.instrs d.body.constants) ds cs := by
  induction h with
  | nil => exact .nil
  | cons _ hn _ hinstrs _ _ ih => exact .cons (hinstrs ▸ hn.literals) ih

theorem Program.exists_ofDeclarations {source : String} {p : Program}
    (h : ofSource source = .ok p) : ∃ ds, Graph.ofDeclarations ds = .ok p.graph := by
  unfold ofSource at h
  simp only at h
  split at h
  · rename_i m _ _
    cases hm : ofModule m with
    | error d =>
      rw [hm] at h
      cases h
    | ok p' =>
      rw [hm] at h
      cases h
      obtain ⟨inputs, -, hm⟩ := Except.bind_eq_ok.1 hm
      obtain ⟨g, hg, hm⟩ := Except.bind_eq_ok.1 hm
      cases hm
      exact ⟨m.declarations, hg⟩
  · cases h

/-- The code of a program has the constants of its source, declaration by declaration. -/
theorem Program.literals_code {source : String} {p : Program} (hp : ofSource source = .ok p)
    {registry : Registry} {m : LoopModule} (h : p.code registry = .ok m) :
    List.Forall₂ (fun vs c => LoopCode.Literals c.instrs vs)
      (p.graph.declarations.map fun d => d.body.constants) m.decls := by
  obtain ⟨ds, hg⟩ := exists_ofDeclarations hp
  obtain ⟨a, sm, carriers, ha, -, -, hsm, hc, hm⟩ := code_eq_ok h
  have hcodes := StampedModule.codes_ofStamped (StampedModule.consistent_ofGraph hg ha hsm) hc hm
  have hends := StampedModule.ofGraph_ends hg ha
  rw [hsm] at hends
  obtain ⟨c, hsettled⟩ := hends
  -- what is stamped mirrors the source, so its constants are those of the source
  rw [map_eq_of_forall₂ hsettled.stands fun _ _ h => h.mirrors.constants_eq,
    List.forall₂_map_left_iff]
  exact hcodes.literals

end LoopNest
