import LoopNest.Proofs.Analysis.Entries
import LoopNest.Proofs.Analysis.Rules
import LoopNest.Proofs.Stamp.Consistency

/-! The analysis finds just what its rules say. For each function of the analysis there is one lemma
that ties it to its rule, and an expression is given the one stamp that it has. -/
namespace LoopNest

namespace Axes

/-- Vectors with a bound are prefixes of one another, so the longest of them is a bound, too. -/
theorem prefix_longest {vectors : List Axes} {a : Axes} (h : ∀ v ∈ vectors, v <+: a) :
    ∀ v ∈ vectors, v <+: longest vectors := by
  intro v hv
  exact List.prefix_of_prefix_length_le (h v hv) (h _ (longest_mem (List.ne_nil_of_mem hv)))
    (length_le_longest hv)

theorem lub_eq_ok_iff_isJoin {vectors : List Axes} {a : Axes} :
    lub vectors = .ok a ↔ IsJoin vectors a := by
  rw [lub_eq_ok_iff]
  constructor
  · rintro ⟨hall, hmem⟩
    refine ⟨hall, fun b hb => ?_⟩
    rcases hmem with hmem | ⟨-, rfl⟩
    · exact hb a hmem
    · exact List.nil_prefix
  · rintro ⟨hall, hleast⟩
    refine ⟨hall, ?_⟩
    by_cases hne : vectors = []
    · subst hne
      exact .inr ⟨rfl, List.prefix_nil.1 (hleast [] (List.forall_mem_nil _))⟩
    · have hlongest := longest_mem hne
      have heq : longest vectors = a := (hall _ hlongest).eq_of_length_le
        (hleast _ (prefix_longest hall)).length_le
      exact .inl (heq ▸ hlongest)

theorem leaves_iff_dropLast {hint : Option Axes} (h : hint.getD [] = []) {argument rest : Axes} :
    Leaves hint argument rest ↔ argument.dropLast = rest := by
  constructor
  · intro hl
    cases hl with
    | named hne => exact absurd h hne
    | innermost _ => exact List.dropLast_concat
    | scalar _ => rfl
  · rintro rfl
    rcases List.eq_nil_or_concat argument with rfl | ⟨rest, last, rfl⟩
    · exact .scalar h
    · rw [List.concat_eq_append, List.dropLast_concat]
      exact .innermost h

theorem leaves_iff_dropTail? {reduced : Axes} (h : reduced ≠ []) {argument rest : Axes} :
    Leaves (some reduced) argument rest ↔ argument.dropTail? reduced = some rest := by
  constructor
  · intro hl
    cases hl with
    | named _ => simp [dropTail?]
    | innermost hnil => exact absurd hnil h
    | scalar hnil => exact absurd hnil h
  · intro hdrop
    rw [eq_append_of_dropTail? hdrop]
    exact .named h

end Axes

namespace DType

theorem promote?_eq_some_iff {a b t : DType} : a.promote? b = some t ↔ Common a b t := by
  unfold promote?
  constructor
  · intro h
    split at h
    · rename_i heq
      cases h
      exact heq ▸ .same
    · rename_i hne
      split at h
      · rename_i hnum
        cases h
        rw [Bool.and_eq_true] at hnum
        exact .numbers hnum.1 hnum.2 hne
      · cases h
  · intro h
    cases h with
    | same => rw [if_pos rfl]
    | numbers ha hb hne => rw [if_neg hne, ha, hb]; rfl

end DType

namespace TypeRule

theorem promoteFrom_eq_ok_iff {acc t : DType} (hacc : acc.isNumeric = true) {types : List DType} :
    promoteFrom acc types = .ok t ↔
      (∀ u ∈ types, u.isNumeric = true) ∧
        t = if .float ∈ acc :: types then .float else .integer := by
  induction types generalizing acc with
  | nil => cases acc <;> simp_all [promoteFrom, DType.isNumeric, eq_comm]
  | cons u types ih =>
    rw [promoteFrom, List.forall_mem_cons]
    cases hu : u.isNumeric with
    | false => simp
    | true =>
      -- the type so far stands for itself and the next one
      have hnext : ((acc.promote? u).getD u).isNumeric = true ∧
          (.float ∈ (acc.promote? u).getD u :: types ↔ .float ∈ acc :: u :: types) := by
        cases acc <;> cases u <;> simp_all [DType.isNumeric, DType.promote?]
      rw [if_pos rfl, ih hnext.1]
      simp [hnext.2]

theorem promoteAll_eq_ok_iff {types : List DType} {t : DType} :
    promoteAll types = .ok t ↔ DType.Promotes types t := by
  cases types with
  | nil =>
    refine ⟨fun h => ?_, fun h => absurd rfl h.nonempty⟩
    cases h
  | cons first rest =>
    rw [promoteAll]
    constructor
    · intro h
      split at h
      · rename_i hfirst
        obtain ⟨hrest, hresult⟩ := (promoteFrom_eq_ok_iff hfirst).1 h
        exact ⟨List.cons_ne_nil _ _, List.forall_mem_cons.2 ⟨hfirst, hrest⟩, hresult⟩
      · cases h
    · rintro ⟨-, hnumeric, hresult⟩
      obtain ⟨hfirst, hrest⟩ := List.forall_mem_cons.1 hnumeric
      rw [if_pos hfirst]
      exact (promoteFrom_eq_ok_iff hfirst).2 ⟨hrest, hresult⟩

theorem uniform_eq_ok_iff {name : String} {types : List DType} {t : DType} :
    uniform name types = .ok t ↔ types ≠ [] ∧ ∀ u ∈ types, u = t := by
  cases types with
  | nil =>
    refine ⟨fun h => ?_, fun h => absurd rfl h.1⟩
    cases h
  | cons first rest =>
    rw [uniform]
    constructor
    · intro h
      split at h
      · cases h
      · rename_i hnone
        cases h
        refine ⟨List.cons_ne_nil _ _, List.forall_mem_cons.2 ⟨rfl, fun u hu => ?_⟩⟩
        simpa using List.find?_eq_none.1 hnone u hu
    · rintro ⟨-, hall⟩
      obtain ⟨rfl, hrest⟩ := List.forall_mem_cons.1 hall
      have hnone : rest.find? (· != first) = none :=
        List.find?_eq_none.2 fun u hu => by simp [hrest u hu]
      rw [hnone]

theorem find?_zip_eq_some_iff {params : List String} {types : List DType} {name : String}
    {t : DType} : (∃ p, (params.zip types).find? (·.1 == name) = some (p, t)) ↔
      name ∈ params ∧ types[params.idxOf name]? = some t := by
  induction params generalizing types with
  | nil => simp
  | cons p params ih =>
    cases types with
    | nil => simp
    | cons u types =>
      rw [List.zip_cons_cons]
      by_cases hp : p = name
      · simp [hp]
      · have hne : name ≠ p := fun h => hp h.symm
        simp [hp, hne, ih]

section Apply

variable {params : List String} {variadic : Bool} {types : List DType} {rule : TypeRule} {t : DType}

/-- The names of the arguments matter only where a rule asks for one. -/
theorem apply_eq_ok_iff {args : NamedTypes} (htypes : args.types = types)
    (hsame : ∀ name, apply (.same name) args = .ok t ↔ Gives params variadic types (.same name) t) :
    rule.apply args = .ok t ↔ rule.Gives params variadic types t := by
  subst htypes
  cases rule with
  | same name => exact hsame name
  | fixed u =>
    constructor
    · intro h
      cases h
      exact .fixed
    · intro h
      cases h
      rfl
  | promote =>
    refine promoteAll_eq_ok_iff.trans ⟨.promote, fun h => ?_⟩
    cases h with
    | promote hp => exact hp
  | tupleOf =>
    constructor
    · intro h
      cases h
      exact .tupleOf
    · intro h
      cases h
      rfl

theorem apply_named_iff (hlen : types.length = params.length) :
    rule.apply (.named (params.zip types)) = .ok t ↔ rule.Gives params false types t := by
  refine apply_eq_ok_iff (List.map_snd_zip (Nat.le_of_eq hlen)) fun name => ?_
  rw [apply]
  constructor
  · intro h
    split at h
    · rename_i p u hfind
      cases h
      obtain ⟨hmem, hget⟩ := find?_zip_eq_some_iff.1 ⟨p, hfind⟩
      exact .param rfl hmem hget
    · cases h
  · intro h
    cases h with
    | param _ hmem hget =>
      obtain ⟨p, hfind⟩ := find?_zip_eq_some_iff.2 ⟨hmem, hget⟩
      rw [hfind]
    | list hv => cases hv

theorem apply_variadic_iff :
    rule.apply (.variadic (params.head?.getD "args") types) = .ok t ↔
      rule.Gives params true types t := by
  refine apply_eq_ok_iff rfl fun name => ?_
  rw [apply]
  constructor
  · intro h
    split at h
    · rename_i hname
      obtain ⟨hne, hall⟩ := uniform_eq_ok_iff.1 h
      exact .list rfl hname hne hall
    · cases h
  · intro h
    cases h with
    | param hv => cases hv
    | list _ hname hne hall =>
      rw [if_pos hname]
      exact uniform_eq_ok_iff.2 ⟨hne, hall⟩

end Apply

end TypeRule

namespace Signature

theorem resultType?_eq_some_iff {f : Signature} {types : List DType} {t : DType} :
    f.resultType? types = some t ↔ f.Returns types t := by
  have hsome {args : NamedTypes} : (f.rule.apply args).toOption = some t ↔
      f.rule.apply args = .ok t := by
    cases f.rule.apply args <;> simp [Except.toOption]
  cases hv : f.variadic with
  | true =>
    have hname : f.nameTypes types = .ok (.variadic (f.params.head?.getD "args") types) := by
      rw [nameTypes, if_pos hv]
    rw [resultType?, hname]
    refine (hsome.trans TypeRule.apply_variadic_iff).trans ⟨fun h => ⟨.inl hv, hv ▸ h⟩, fun h => ?_⟩
    exact hv ▸ h.rule
  | false =>
    by_cases hlen : types.length = f.params.length
    · have hname : f.nameTypes types = .ok (.named (f.params.zip types)) := by
        rw [nameTypes, hv, if_neg Bool.false_ne_true, if_pos hlen]
      rw [resultType?, hname]
      refine (hsome.trans (TypeRule.apply_named_iff hlen)).trans
        ⟨fun h => ⟨.inr hlen, hv ▸ h⟩, fun h => ?_⟩
      exact hv ▸ h.rule
    · have hname : f.nameTypes types = .error ⟨f.id, f.params.length, types.length⟩ := by
        rw [nameTypes, hv, if_neg Bool.false_ne_true, if_neg hlen]
      rw [resultType?, hname]
      constructor
      · intro h
        cases h
      intro h
      rcases h.arity with h | h
      · cases hv.symm.trans h
      · exact absurd h hlen

end Signature

namespace Analysis

theorem combinedAxes_eq_ok_iff {args : List NodeFacts} {span : Span} {axes : Axes} :
    combinedAxes args span = .ok axes ↔ Axes.IsJoin (args.map NodeFacts.axes) axes := by
  rw [← Axes.lub_eq_ok_iff_isJoin]
  refine ⟨combinedAxes_eq_ok, fun h => ?_⟩
  rw [combinedAxes, h]

theorem resultType_eq_ok_iff {f : Signature} {args : List NodeFacts} {span : Span} {t : DType} :
    resultType f args span = .ok t ↔ f.Returns (args.map NodeFacts.dtype) t := by
  rw [← Signature.resultType?_eq_some_iff]
  refine ⟨resultType_eq_ok, fun h => ?_⟩
  rw [Signature.resultType?] at h
  cases hnamed : f.nameTypes (args.map NodeFacts.dtype) with
  | error e =>
    rw [hnamed] at h
    cases h
  | ok named =>
    rw [hnamed] at h
    rw [resultType, hnamed]
    cases happly : f.rule.apply named with
    | error e =>
      simp only [happly] at h
      cases h
    | ok u =>
      simp only [happly] at h ⊢
      cases h
      rfl

theorem reducedAxes_eq_ok_iff {hint : Option Axes} {argument rest : Axes} {span : Span} :
    (∃ r, reducedAxes hint argument span = .ok (rest, r)) ↔ Axes.Leaves hint argument rest := by
  have innermost : (∃ r, Except.ok (argument.dropLast, (⟨argument.getLast?.toList,
      argument.getLast?⟩ : Reduction)) = (.ok (rest, r) : Except Diagnostic _)) ↔
      argument.dropLast = rest := by
    simp
  cases hint with
  | none => exact innermost.trans (Axes.leaves_iff_dropLast rfl).symm
  | some reduced =>
    cases reduced with
    | nil => exact innermost.trans (Axes.leaves_iff_dropLast rfl).symm
    | cons a reduced =>
      rw [Axes.leaves_iff_dropTail? (List.cons_ne_nil a reduced)]
      cases hdrop : argument.dropTail? (a :: reduced) with
      | none => simp [reducedAxes, hdrop]
      | some rest' => simp [reducedAxes, hdrop]

section Finding

variable {env : Env} {span : Span} {s : Stamp}

/-- A rule finds a stamp. -/
def Finds (rule : Except Diagnostic NodeFacts) (s : Stamp) : Prop :=
  ∃ i, rule = .ok i ∧ i.stamp = s

theorem function_eq_ok_iff {id : String} {f : Signature} :
    function env id span = .ok f ↔ env.registry.find? id = some f := by
  refine ⟨function_eq_ok, fun h => ?_⟩
  rw [function, h]

theorem finds_inputRule {path : FieldPath} : Finds (inputRule env path span) s ↔
    ∃ entry, env.inputs.find? path = some entry ∧ ⟨entry.axes, entry.dtype⟩ = s := by
  constructor
  · rintro ⟨i, h, rfl⟩
    obtain ⟨entry, hfind, rfl⟩ := inputRule_eq_ok h
    exact ⟨entry, hfind, rfl⟩
  · rintro ⟨entry, hfind, rfl⟩
    exact ⟨_, by rw [inputRule, hfind], rfl⟩

theorem finds_refRule {name : String} :
    Finds (refRule env name span) s ↔ env.decls.lookup name = some s := by
  constructor
  · rintro ⟨i, h, rfl⟩
    obtain ⟨stamp, hlookup, rfl⟩ := refRule_eq_ok h
    exact hlookup
  · intro hlookup
    exact ⟨_, by rw [refRule, hlookup], rfl⟩

theorem finds_broadcast {args : List NodeFacts} {dtype : Except Diagnostic DType} :
    Finds (do let axes ← combinedAxes args span
              let dtype ← dtype
              return .broadcast axes dtype args) s ↔
      Axes.IsJoin (args.map NodeFacts.axes) s.axes ∧ dtype = .ok s.dtype := by
  constructor
  · rintro ⟨i, h, rfl⟩
    obtain ⟨axes, haxes, h⟩ := Except.bind_eq_ok.1 h
    obtain ⟨t, ht, h⟩ := Except.bind_eq_ok.1 h
    cases h
    exact ⟨combinedAxes_eq_ok_iff.1 haxes, ht⟩
  · rintro ⟨hjoin, ht⟩
    exact ⟨_, Except.bind_eq_ok.2 ⟨_, combinedAxes_eq_ok_iff.2 hjoin,
      Except.bind_eq_ok.2 ⟨_, ht, rfl⟩⟩, rfl⟩

theorem finds_tupleRule {args : List NodeFacts} : Finds (tupleRule args span) s ↔
    ∃ axes, Axes.IsJoin (args.map NodeFacts.axes) axes ∧
      ⟨axes, .tuple (args.map NodeFacts.dtype)⟩ = s := by
  constructor
  · rintro ⟨i, h, rfl⟩
    obtain ⟨axes, haxes, h⟩ := Except.bind_eq_ok.1 h
    cases h
    exact ⟨axes, combinedAxes_eq_ok_iff.1 haxes, rfl⟩
  · rintro ⟨axes, hjoin, rfl⟩
    exact ⟨_, Except.bind_eq_ok.2 ⟨axes, combinedAxes_eq_ok_iff.2 hjoin, rfl⟩, rfl⟩

theorem finds_selectRule {c t f : NodeFacts} : Finds (selectRule c t f span) s ↔
    c.dtype = .boolean ∧ Axes.IsJoin [c.axes, t.axes, f.axes] s.axes ∧
      DType.Common t.dtype f.dtype s.dtype := by
  constructor
  · rintro ⟨i, h, rfl⟩
    obtain ⟨hbool, hpromote⟩ := dtype_selectRule h
    exact ⟨hbool, Axes.lub_eq_ok_iff_isJoin.1 (selectRule_eq_ok h),
      DType.promote?_eq_some_iff.1 hpromote⟩
  · rintro ⟨hbool, hjoin, hcommon⟩
    refine ⟨.broadcast s.axes s.dtype [c, t, f],
      Except.bind_eq_ok.2 ⟨s.axes, combinedAxes_eq_ok_iff.2 hjoin, ?_⟩, rfl⟩
    rw [if_pos hbool, DType.promote?_eq_some_iff.2 hcommon]
    rfl

theorem finds_reduceRule {f : Signature} {hint : Option Axes} {args : List NodeFacts} :
    Finds (reduceRule f hint args span) s ↔
      ∃ arg, args = [arg] ∧ Axes.Leaves hint arg.axes s.axes ∧ f.Returns [arg.dtype] s.dtype := by
  constructor
  · rintro ⟨i, h, rfl⟩
    obtain ⟨arg, -, rfl, -⟩ := reduceRule_eq_ok h
    obtain ⟨⟨rest, r⟩, hr, h⟩ := Except.bind_eq_ok.1 h
    obtain ⟨dtype, ht, h⟩ := Except.bind_eq_ok.1 h
    cases h
    exact ⟨arg, rfl, reducedAxes_eq_ok_iff.1 ⟨r, hr⟩, resultType_eq_ok_iff.1 ht⟩
  · rintro ⟨arg, rfl, hleaves, hreturns⟩
    obtain ⟨r, hr⟩ := reducedAxes_eq_ok_iff.2 hleaves
    have ht : resultType f [arg] span = .ok s.dtype := resultType_eq_ok_iff.2 hreturns
    exact ⟨_, Except.bind_eq_ok.2 ⟨_, hr, Except.bind_eq_ok.2 ⟨_, ht, rfl⟩⟩, rfl⟩

theorem finds_explicitReduceRule {op : String} {hint : Option Axes} {arg : NodeFacts} :
    Finds (explicitReduceRule env op hint arg span) s ↔
      ReduceStamp env.registry op hint arg.stamp s := by
  constructor
  · rintro ⟨i, h, rfl⟩
    obtain ⟨f, hf, h⟩ := Except.bind_eq_ok.1 h
    split at h
    · rename_i hkind
      obtain ⟨_, harg, hleaves, hreturns⟩ := finds_reduceRule.1 ⟨i, h, rfl⟩
      cases harg
      exact .mk (function_eq_ok_iff.1 hf) hkind hleaves hreturns
    · cases h
  · intro h
    cases h with
    | @mk f rest dtype hfind hkind hleaves hreturns =>
      have hfinds : Finds (reduceRule f hint [arg] span) ⟨rest, dtype⟩ :=
        finds_reduceRule.2 ⟨arg, rfl, hleaves, hreturns⟩
      obtain ⟨i, hi, hs⟩ := hfinds
      refine ⟨i, Except.bind_eq_ok.2 ⟨f, function_eq_ok_iff.2 hfind, ?_⟩, hs⟩
      simp only [hkind]
      exact hi

/-- A function that is found gives the rule for its kind. -/
theorem finds_callRule_of_find? {func : String} {f : Signature}
    (hf : env.registry.find? func = some f) {args : List NodeFacts} :
    Finds (callRule env func args span) s ↔
      if f.kind = .reduce then Finds (reduceRule f none args span) s
      else Axes.IsJoin (args.map NodeFacts.axes) s.axes ∧
        f.Returns (args.map NodeFacts.dtype) s.dtype := by
  have hrule : callRule env func args span =
      if f.kind = .reduce then reduceRule f none args span
      else do
        let axes ← combinedAxes args span
        let dtype ← resultType f args span
        return .broadcast axes dtype args := by
    rw [callRule, function_eq_ok_iff.2 hf]
    simp only [bind, Except.bind]
    cases f.kind <;> rfl
  rw [hrule]
  split
  · rfl
  · rw [finds_broadcast, resultType_eq_ok_iff]

theorem finds_callRule {func : String} {args : List NodeFacts} :
    Finds (callRule env func args span) s ↔
      CallStamp env.registry func (args.map NodeFacts.stamp) s := by
  constructor
  · intro h
    obtain ⟨i, hi, -⟩ := id h
    obtain ⟨f, hf, -⟩ := Except.bind_eq_ok.1 hi
    rw [function_eq_ok_iff] at hf
    rw [finds_callRule_of_find? hf] at h
    split at h
    · rename_i hkind
      obtain ⟨arg, rfl, hleaves, hreturns⟩ := finds_reduceRule.1 h
      exact .reduction (.mk hf hkind hleaves hreturns)
    · rename_i hkind
      refine .broadcast hf hkind ?_ ?_
      · rw [List.map_map]
        exact h.1
      · rw [List.map_map]
        exact h.2
  · intro h
    generalize hstamps : args.map NodeFacts.stamp = stamps at h
    cases h with
    | broadcast hf hkind hjoin hreturns =>
      subst hstamps
      rw [List.map_map] at hjoin hreturns
      rw [finds_callRule_of_find? hf, if_neg hkind]
      exact ⟨hjoin, hreturns⟩
    | reduction hr =>
      obtain ⟨arg, rfl, rfl⟩ := List.map_eq_singleton_iff.1 hstamps
      cases hr with
      | mk hf hkind hleaves hreturns =>
        rw [finds_callRule_of_find? hf, if_pos hkind]
        exact finds_reduceRule.2 ⟨arg, rfl, hleaves, hreturns⟩

end Finding

variable {env : Env}

/-- The stamp that is inferred for an expression. -/
def Infers (env : Env) (e : GraphExpr) (s : Stamp) : Prop :=
  ∃ r, infer env e = .ok r ∧ r.info.stamp = s

/-- The stamps that are inferred for some expressions, and the facts that they come with. -/
theorem forall₂_infers_iff {es : List GraphExpr} {stamps : List Stamp} :
    List.Forall₂ (Infers env) es stamps ↔
      ∃ rs, List.Forall₂ (fun e r => infer env e = .ok r) es rs ∧
        (rs.map Inference.info).map NodeFacts.stamp = stamps := by
  simp only [List.map_map]
  exact forall₂_exists_iff

theorem infers_call {n : Node} {func : String} {args : List GraphExpr} {s : Stamp} :
    Infers env (.call n func args) s ↔
      ∃ stamps, List.Forall₂ (Infers env) args stamps ∧ CallStamp env.registry func stamps s := by
  constructor
  · rintro ⟨r, hr, rfl⟩
    obtain ⟨rs, i, hrs, hi, rfl⟩ := infer_call_eq_ok.1 hr
    exact ⟨_, forall₂_infers_iff.2 ⟨rs, hrs, rfl⟩, finds_callRule.1 ⟨i, hi, rfl⟩⟩
  · rintro ⟨stamps, hstamps, hcall⟩
    obtain ⟨rs, hrs, rfl⟩ := forall₂_infers_iff.1 hstamps
    obtain ⟨i, hi, rfl⟩ := finds_callRule.2 hcall
    exact ⟨_, infer_call_eq_ok.2 ⟨rs, i, hrs, hi, rfl⟩, rfl⟩

theorem infers_tuple {n : Node} {elems : List GraphExpr} {s : Stamp} :
    Infers env (.tuple n elems) s ↔
      ∃ stamps axes, List.Forall₂ (Infers env) elems stamps ∧
        Axes.IsJoin (stamps.map Stamp.axes) axes ∧ ⟨axes, .tuple (stamps.map Stamp.dtype)⟩ = s := by
  constructor
  · rintro ⟨r, hr, rfl⟩
    obtain ⟨rs, i, hrs, hi, rfl⟩ := infer_tuple_eq_ok.1 hr
    obtain ⟨axes, hjoin, hs⟩ := finds_tupleRule.1 ⟨i, hi, rfl⟩
    refine ⟨_, axes, forall₂_infers_iff.2 ⟨rs, hrs, rfl⟩, ?_, ?_⟩
    · rw [List.map_map]
      exact hjoin
    · rw [List.map_map]
      exact hs
  · rintro ⟨stamps, axes, hstamps, hjoin, rfl⟩
    obtain ⟨rs, hrs, rfl⟩ := forall₂_infers_iff.1 hstamps
    rw [List.map_map] at hjoin
    obtain ⟨i, hi, hs⟩ := finds_tupleRule.2 ⟨axes, hjoin, rfl⟩
    rw [List.map_map]
    exact ⟨_, infer_tuple_eq_ok.2 ⟨rs, i, hrs, hi, rfl⟩, hs⟩

theorem infers_select {n : Node} {c t f : GraphExpr} {s : Stamp} :
    Infers env (.select n c t f) s ↔
      ∃ sc st sf, Infers env c sc ∧ Infers env t st ∧ Infers env f sf ∧ sc.dtype = .boolean ∧
        Axes.IsJoin [sc.axes, st.axes, sf.axes] s.axes ∧
        DType.Common st.dtype sf.dtype s.dtype := by
  constructor
  · rintro ⟨r, hr, rfl⟩
    obtain ⟨rc, rt, rf, i, hc, ht, hf, hi, rfl⟩ := infer_select_eq_ok.1 hr
    exact ⟨_, _, _, ⟨rc, hc, rfl⟩, ⟨rt, ht, rfl⟩, ⟨rf, hf, rfl⟩, finds_selectRule.1 ⟨i, hi, rfl⟩⟩
  · rintro ⟨_, _, _, ⟨rc, hc, rfl⟩, ⟨rt, ht, rfl⟩, ⟨rf, hf, rfl⟩, hrule⟩
    obtain ⟨i, hi, hs⟩ := finds_selectRule.2 hrule
    exact ⟨_, infer_select_eq_ok.2 ⟨rc, rt, rf, i, hc, ht, hf, hi, rfl⟩, hs⟩

theorem infers_reduce {n : Node} {op : String} {hint : Option Axes} {arg : GraphExpr} {s : Stamp} :
    Infers env (.reduce n op hint arg) s ↔
      ∃ sa, Infers env arg sa ∧ ReduceStamp env.registry op hint sa s := by
  constructor
  · rintro ⟨r, hr, rfl⟩
    obtain ⟨ra, i, ha, hi, rfl⟩ := infer_reduce_eq_ok.1 hr
    exact ⟨_, ⟨ra, ha, rfl⟩, finds_explicitReduceRule.1 ⟨i, hi, rfl⟩⟩
  · rintro ⟨_, ⟨ra, ha, rfl⟩, hrule⟩
    obtain ⟨i, hi, hs⟩ := finds_explicitReduceRule.2 hrule
    exact ⟨_, infer_reduce_eq_ok.2 ⟨ra, i, ha, hi, rfl⟩, hs⟩

theorem infers_leaf {n : Node} {rule : Except Diagnostic NodeFacts} {s : Stamp} :
    (∃ r : Inference, (do return .node n [] (← rule)) = Except.ok r ∧ r.info.stamp = s) ↔
      Finds rule s := by
  simp only [infer_leaf_eq_ok]
  constructor
  · rintro ⟨_, ⟨i, hi, rfl⟩, rfl⟩
    exact ⟨i, hi, rfl⟩
  · rintro ⟨i, hi, rfl⟩
    exact ⟨_, ⟨i, hi, rfl⟩, rfl⟩

/-- The stamp of an expression is the one that is inferred for it, where the declarations before
have names of their own. -/
theorem hasStamp_iff_infers (hnames : (env.decls.map Prod.fst).Nodup) (e : GraphExpr) (s : Stamp) :
    HasStamp env e s ↔ Infers env e s := by
  induction e using Expr.induction generalizing s with
  | constant n v =>
    constructor
    · intro h
      cases h
      exact ⟨_, rfl, rfl⟩
    · rintro ⟨r, hr, rfl⟩
      cases hr
      exact .constant
  | input n path =>
    refine Iff.trans ?_ (infers_leaf.trans finds_inputRule).symm
    constructor
    · intro h
      cases h with
      | input hfind => exact ⟨_, hfind, rfl⟩
    · rintro ⟨entry, hfind, rfl⟩
      exact .input hfind
  | ref n name =>
    refine Iff.trans ?_ (infers_leaf.trans finds_refRule).symm
    constructor
    · intro h
      cases h with
      | ref hmem => exact lookup_eq_some_of_nodup hnames hmem
    · exact fun h => .ref (mem_of_lookup_eq_some h)
  | call n func args ih =>
    simp only [infers_call, ← forall₂_iff_of_mem ih]
    constructor
    · intro h
      cases h with
      | call hargs hcall => exact ⟨_, hargs, hcall⟩
    · rintro ⟨stamps, hargs, hcall⟩
      exact .call hargs hcall
  | tuple n elems ih =>
    simp only [infers_tuple, ← forall₂_iff_of_mem ih]
    constructor
    · intro h
      cases h with
      | tuple helems hjoin => exact ⟨_, _, helems, hjoin, rfl⟩
    · rintro ⟨stamps, axes, helems, hjoin, rfl⟩
      exact .tuple helems hjoin
  | select n c t f ihc iht ihf =>
    simp only [infers_select, ← ihc, ← iht, ← ihf]
    constructor
    · intro h
      cases h with
      | select hc ht hf hbool hjoin hcommon => exact ⟨_, _, _, hc, ht, hf, hbool, hjoin, hcommon⟩
    · rintro ⟨sc, st, sf, hc, ht, hf, hbool, hjoin, hcommon⟩
      exact .select hc ht hf hbool hjoin hcommon
  | reduce n op hint arg ih =>
    simp only [infers_reduce, ← ih]
    constructor
    · intro h
      cases h with
      | reduce harg hreduce => exact ⟨_, harg, hreduce⟩
    · rintro ⟨sa, harg, hreduce⟩
      exact .reduce harg hreduce

end Analysis
end LoopNest
