import LoopNest.Proofs.Expressions
import LoopNest.Proofs.OrderedMaps
import LoopNest.Proofs.Stamp.Module

/-! Analysis and stamping done again, in an environment that knows more and with other numbers. What
was found the first time is found again, and from the same numbers on it is the very same. -/
namespace LoopNest

namespace Analysis

/-- An environment lies within another one, as far as some names of declarations go. -/
structure Env.Within (env env' : Env) (names : List String) : Prop where
  inputs : env.inputs.Within env'.inputs
  registry : env.registry.Within env'.registry
  decls : ∀ name ∈ names, ∀ stamp, env.decls.lookup name = some stamp →
    env'.decls.lookup name = some stamp

theorem Env.Within.mono {env env' : Env} {names names' : List String}
    (h : env.Within env' names) (hn : names' ⊆ names) : env.Within env' names' :=
  ⟨h.inputs, h.registry, fun name hname => h.decls name (hn hname)⟩

/-- The analysis has the given facts. -/
def Knows (a : Analysis) (nodes : List (NodeId × NodeFacts)) : Prop :=
  ∀ p ∈ nodes, a.node? p.1 = some p.2

theorem knows_append {a : Analysis} {nodes nodes' : List (NodeId × NodeFacts)} :
    a.Knows (nodes ++ nodes') ↔ a.Knows nodes ∧ a.Knows nodes' :=
  List.forall_mem_append

theorem knows_node {a : Analysis} {n : Node} {below : List (NodeId × NodeFacts)}
    {facts : NodeFacts} :
    a.Knows (Inference.node n below facts).nodes ↔ a.Knows below ∧ a.node? n.id = some facts := by
  rw [Inference.node, knows_append, Knows, Knows, List.forall_mem_singleton]

section Rules

variable {env env' : Env} {names : List String} (h : env.Within env' names)
include h

theorem function_within {id : String} {span : Span} {f : Signature}
    (hf : function env id span = .ok f) : function env' id span = .ok f := by
  rw [function] at hf
  split at hf
  · rename_i f' hfind
    rw [function, h.registry _ _ hfind]
    exact hf
  · cases hf

theorem inputRule_within {path : FieldPath} {span : Span} {i : NodeFacts}
    (hi : inputRule env path span = .ok i) : inputRule env' path span = .ok i := by
  rw [inputRule] at hi
  split at hi
  · rename_i entry hfind
    rw [inputRule, h.inputs _ _ hfind]
    exact hi
  · cases hi

theorem refRule_within {name : String} (hn : name ∈ names) {span : Span} {i : NodeFacts}
    (hi : refRule env name span = .ok i) : refRule env' name span = .ok i := by
  rw [refRule] at hi
  split at hi
  · rename_i stamp hfind
    rw [refRule, h.decls name hn _ hfind]
    exact hi
  · cases hi

theorem callRule_within {func : String} {args : List NodeFacts} {span : Span} {i : NodeFacts}
    (hi : callRule env func args span = .ok i) : callRule env' func args span = .ok i := by
  obtain ⟨f, hf, hi⟩ := Except.bind_eq_ok.1 hi
  exact Except.bind_eq_ok.2 ⟨f, function_within h hf, hi⟩

theorem explicitReduceRule_within {op : String} {reduced : Option Axes} {arg i : NodeFacts}
    {span : Span} (hi : explicitReduceRule env op reduced arg span = .ok i) :
    explicitReduceRule env' op reduced arg span = .ok i := by
  obtain ⟨f, hf, hi⟩ := Except.bind_eq_ok.1 hi
  exact Except.bind_eq_ok.2 ⟨f, function_within h hf, hi⟩

end Rules

end Analysis

namespace Stamping

open Analysis

theorem info_of_node? {a : Analysis} {n : Node} {i : NodeFacts} (h : a.node? n.id = some i)
    (c : ModuleCounter) : info a n c = .ok (i, c) := by
  simp only [info, h]
  rfl

/-- Where one computation succeeds, another one does so too. Its result is the same up to numbers,
and the very same under a condition. -/
def Repeats {γ : Type} (plain : γ → γ) (same : Prop) (x y : Except Diagnostic (γ × ModuleCounter)) :
    Prop :=
  ∀ s k, x = .ok (s, k) → ∃ s' k', y = .ok (s', k') ∧ plain s' = plain s ∧ (same → s' = s ∧ k' = k)

theorem Repeats.imp {γ : Type} {plain : γ → γ} {same same' : Prop}
    {x y : Except Diagnostic (γ × ModuleCounter)} (h : Repeats plain same x y)
    (hs : same' → same) : Repeats plain same' x y := by
  intro s k hx
  obtain ⟨s', k', hy, hplain, hsame⟩ := h s k hx
  exact ⟨s', k', hy, hplain, fun h => hsame (hs h)⟩

theorem Repeats.bind {γ δ : Type} {plain : γ → γ} {plain' : δ → δ} {same : Prop}
    {x y : Marking γ} {f g : γ → Marking δ} {c c' : ModuleCounter}
    (h : Repeats plain same (x c) (y c'))
    (hfg : ∀ s k s' k', plain s' = plain s → (same → s' = s ∧ k' = k) →
      Repeats plain' same (f s k) (g s' k')) :
    Repeats plain' same ((x >>= f) c) ((y >>= g) c') := by
  intro t k ht
  obtain ⟨s, k₁, hx, hf⟩ := StateT.bind_eq_ok.1 ht
  obtain ⟨s', k₂, hy, hplain, hsame⟩ := h s k₁ hx
  obtain ⟨t', k', hg, ht'⟩ := hfg s k₁ s' k₂ hplain hsame t k hf
  exact ⟨t', k', StateT.bind_eq_ok.2 ⟨s', k₂, hy, hg⟩, ht'⟩

theorem repeats_pure {γ : Type} {plain : γ → γ} {same : Prop} {s s' : γ} {c c' : ModuleCounter}
    (hs : plain s' = plain s) (hsame : same → s' = s ∧ c' = c) :
    Repeats plain same ((pure s : Marking γ) c) ((pure s' : Marking γ) c') := by
  intro t k ht
  cases StateT.pure_eq_ok.1 ht
  exact ⟨s', c', StateT.pure_eq_ok.2 rfl, hs, hsame⟩

/-- A node gets the same mark again, and what is built on it is the same. -/
theorem repeats_mark {n n' : NodeId} {span : Span} {stamp : Stamp} {plan : Option Plan}
    {build build' : Mark → StampedExpr} {same : Prop} {c c' : ModuleCounter}
    (hsame : same → n' = n ∧ c' = c)
    (hplain : ∀ m m', m'.unnumbered = m.unnumbered →
      (build' m').unnumbered = (build m).unnumbered)
    (hbuild : same → ∀ m, build' m = build m) :
    Repeats StampedExpr.unnumbered same
      ((do return build (← mark ⟨n, span⟩ stamp plan) : Marking StampedExpr) c)
      ((do return build' (← mark ⟨n', span⟩ stamp plan) : Marking StampedExpr) c') := by
  intro s k hs
  cases hs
  refine ⟨_, _, rfl, hplain _ _ rfl, fun h => ?_⟩
  obtain ⟨rfl, rfl⟩ := hsame h
  exact ⟨hbuild h _, rfl⟩

theorem repeats_info {γ : Type} {a a' : Analysis} {n n' : Node} {i : NodeFacts}
    (hi : a.node? n.id = some i) (hi' : a'.node? n'.id = some i) {plain : γ → γ} {same : Prop}
    {f g : NodeFacts → Marking γ} {c c' : ModuleCounter}
    (h : Repeats plain same (f i c) (g i c')) :
    Repeats plain same ((info a n >>= f) c) ((info a' n' >>= g) c') := by
  intro t k ht
  obtain ⟨j, k₁, hj, hf⟩ := StateT.bind_eq_ok.1 ht
  cases (info_of_node? hi c).symm.trans hj
  obtain ⟨t', k', hg, ht'⟩ := h t k hf
  exact ⟨t', k', StateT.bind_eq_ok.2 ⟨i, c', info_of_node? hi' c', hg⟩, ht'⟩

theorem repeats_leaf {leaf : Mark → StampedExpr}
    (hleaf : ∀ m, (leaf m).unnumbered = leaf m.unnumbered) {a a' : Analysis} {n n' : Nat}
    {span : Span} {i : NodeFacts} (ha : a.Knows (Inference.node ⟨⟨n⟩, span⟩ [] i).nodes)
    (ha' : a'.Knows (Inference.node ⟨⟨n'⟩, span⟩ [] i).nodes) {c c' : ModuleCounter} :
    Repeats StampedExpr.unnumbered (n' = n ∧ c' = c)
      ((do let i ← info a ⟨⟨n⟩, span⟩
           return leaf (← mark ⟨⟨n⟩, span⟩ i.stamp none) : Marking StampedExpr) c)
      ((do let i ← info a' ⟨⟨n'⟩, span⟩
           return leaf (← mark ⟨⟨n'⟩, span⟩ i.stamp none) : Marking StampedExpr) c') := by
  refine repeats_info (knows_node.1 ha).2 (knows_node.1 ha').2 ?_
  refine repeats_mark (fun hs => ⟨by rw [hs.1], hs.2⟩) (fun m m' hm => ?_) fun _ _ => rfl
  rw [hleaf, hleaf, hm]

variable {env env' : Env}

theorem repeats_stampCall {i : NodeFacts} {n n' : NodeId} {span : Span} {func : String}
    {f : Signature} (hf : env.registry.find? func = some f)
    (hf' : env'.registry.find? func = some f) {ss ss' : List StampedExpr} {same : Prop}
    {c c' : ModuleCounter} (hsame : same → n' = n ∧ c' = c)
    (hss : ss'.map StampedExpr.unnumbered = ss.map StampedExpr.unnumbered)
    (hargs : same → ss' = ss) :
    Repeats StampedExpr.unnumbered same (stampCall env.registry i ⟨n, span⟩ func ss c)
      (stampCall env'.registry i ⟨n', span⟩ func ss' c') := by
  have hlen : ss'.length = ss.length := by simpa using congrArg List.length hss
  have hcall : ∀ m m' : Mark, m'.unnumbered = m.unnumbered →
      StampedExpr.unnumbered (.call m' func ss') = StampedExpr.unnumbered (.call m func ss) := by
    intro m m' hm
    rw [StampedExpr.unnumbered_call, StampedExpr.unnumbered_call, hm, hss]
  have hbroadcast : ∀ plan, Repeats StampedExpr.unnumbered same
      ((do return .call (← mark ⟨n, span⟩ i.stamp plan) func ss : Marking StampedExpr) c)
      ((do return .call (← mark ⟨n', span⟩ i.stamp plan) func ss' : Marking StampedExpr) c') :=
    fun _ => repeats_mark hsame hcall fun h m => by rw [hargs h]
  cases hkind : f.kind with
  | elementwise =>
    simp only [stampCall, hf, hf', Option.map_some, hkind]
    exact hbroadcast _
  | constructor =>
    simp only [stampCall, hf, hf', Option.map_some, hkind, hlen]
    exact hbroadcast _
  | reduce =>
    cases hr : i.reduction with
    | none =>
      simp only [stampCall, hf, hf', Option.map_some, hkind, hr]
      exact hbroadcast _
    | some r =>
      simp only [stampCall, hf, hf', Option.map_some, hkind, hr]
      split
      · -- a reduction has one argument
        rename_i arg
        obtain ⟨arg', rfl⟩ := List.length_eq_one_iff.1 hlen
        have harg : arg'.unnumbered = arg.unnumbered := by simpa using hss
        refine repeats_mark hsame (fun m m' hm => ?_) fun h m => ?_
        · rw [StampedExpr.unnumbered_reduce, StampedExpr.unnumbered_reduce, hm, harg]
        · cases hargs h
          rfl
      · intro s k hs
        cases hs

theorem repeats_stampSelect {i : NodeFacts} {n n' : NodeId} {span : Span}
    {sc sc' st st' sf sf' : StampedExpr} {same : Prop} {c c' : ModuleCounter}
    (hsame : same → n' = n ∧ c' = c) (hc : sc'.unnumbered = sc.unnumbered)
    (ht : st'.unnumbered = st.unnumbered) (hf : sf'.unnumbered = sf.unnumbered)
    (hargs : same → sc' = sc ∧ st' = st ∧ sf' = sf) :
    Repeats StampedExpr.unnumbered same (stampSelect i ⟨n, span⟩ sc st sf c)
      (stampSelect i ⟨n', span⟩ sc' st' sf' c') := by
  have haxes : ∀ {e e' : StampedExpr}, e'.unnumbered = e.unnumbered → e'.axes = e.axes := by
    intro e e' h
    rw [← StampedExpr.axes_unnumbered, h, StampedExpr.axes_unnumbered]
  simp only [stampSelect, List.map_cons, haxes hc, haxes ht, haxes hf]
  cases selectAxes sc.axes st.axes sf.axes with
  | error fault =>
    intro s k hs
    cases hs
  | ok axes =>
    refine repeats_mark hsame (fun m m' hm => ?_) fun h m => ?_
    · rw [StampedExpr.unnumbered_select, StampedExpr.unnumbered_select, hm, hc, ht, hf]
    · obtain ⟨rfl, rfl, rfl⟩ := hargs h
      rfl

/-- An expression is analyzed and stamped again. -/
def Restamps (env env' : Env) (e : SourceExpr) : Prop :=
  ∀ {n : Nat} {i : NodeFacts} {nodes : List (NodeId × NodeFacts)} (n' : Nat),
    infer env (e.number n).1 = .ok ⟨i, nodes⟩ →
    ∃ nodes', infer env' (e.number n').1 = .ok ⟨i, nodes'⟩ ∧ (n' = n → nodes' = nodes) ∧
      ∀ (a a' : Analysis) (c c' : ModuleCounter), a.Knows nodes → a'.Knows nodes' →
        Repeats StampedExpr.unnumbered (n' = n ∧ c' = c)
          (stampExpr a env.registry (e.number n).1 c)
          (stampExpr a' env'.registry (e.number n').1 c')

theorem restamps_all {es : List SourceExpr} (h : ∀ e ∈ es, Restamps env env' e) {n : Nat}
    {infos : List NodeFacts} {nodes : List (NodeId × NodeFacts)} (n' : Nat)
    (hi : inferAll env (Expr.numberAll n es).1 = .ok (infos, nodes)) :
    ∃ nodes', inferAll env' (Expr.numberAll n' es).1 = .ok (infos, nodes') ∧
      (n' = n → nodes' = nodes) ∧
      ∀ (a a' : Analysis) (c c' : ModuleCounter), a.Knows nodes → a'.Knows nodes' →
        Repeats (List.map StampedExpr.unnumbered) (n' = n ∧ c' = c)
          (stampAll a env.registry (Expr.numberAll n es).1 c)
          (stampAll a' env'.registry (Expr.numberAll n' es).1 c') := by
  induction es generalizing n n' infos nodes with
  | nil =>
    cases hi
    exact ⟨[], rfl, fun _ => rfl, fun a a' c c' _ _ => repeats_pure rfl fun hs => ⟨rfl, hs.2⟩⟩
  | cons e es ih =>
    simp only [Expr.numberAll, inferAll, stampAll] at hi ⊢
    obtain ⟨⟨i, first⟩, hfirst, hi⟩ := Except.bind_eq_ok.1 hi
    obtain ⟨⟨infos', rest⟩, hrest, hi⟩ := Except.bind_eq_ok.1 hi
    cases hi
    obtain ⟨first', hfirst', hsame₁, hstamp₁⟩ := h e List.mem_cons_self n' hfirst
    obtain ⟨rest', hrest', hsame₂, hstamp₂⟩ :=
      ih (fun x hx => h x (List.mem_cons_of_mem _ hx)) (e.number n').2 hrest
    refine ⟨first' ++ rest', ?_, fun hn => ?_, fun a a' c c' ha ha' => ?_⟩
    · exact Except.bind_eq_ok.2 ⟨_, hfirst', Except.bind_eq_ok.2 ⟨_, hrest', rfl⟩⟩
    · subst hn
      rw [hsame₁ rfl, hsame₂ rfl]
    · obtain ⟨ha₁, ha₂⟩ := knows_append.1 ha
      obtain ⟨ha₁', ha₂'⟩ := knows_append.1 ha'
      refine (hstamp₁ a a' c c' ha₁ ha₁').bind fun s k s' k' hs hsk => ?_
      have htail := (hstamp₂ a a' k k' ha₂ ha₂').imp fun hn => ⟨by rw [hn.1], (hsk hn).2⟩
      refine htail.bind fun ss k ss' k' hss hssk => ?_
      refine repeats_pure (by rw [List.map_cons, List.map_cons, hs, hss]) fun hn => ?_
      rw [(hsk hn).1, (hssk hn).1]
      exact ⟨rfl, (hssk hn).2⟩

theorem restamps (e : SourceExpr) (h : env.Within env' e.references) : Restamps env env' e := by
  induction e using Expr.induction with
  | constant span v =>
    intro n i nodes n' hr
    cases hr
    exact ⟨_, rfl, fun hn => by rw [hn], fun a a' c c' ha ha' => repeats_leaf (fun _ => rfl) ha ha'⟩
  | input span path =>
    intro n i nodes n' hr
    simp only [Expr.number, infer] at hr
    obtain ⟨facts, hrule, hr⟩ := Except.bind_eq_ok.1 hr
    cases hr
    refine ⟨_, Except.bind_eq_ok.2 ⟨_, inputRule_within h hrule, rfl⟩, fun hn => by rw [hn], ?_⟩
    exact fun a a' c c' ha ha' => repeats_leaf (fun _ => rfl) ha ha'
  | ref span name =>
    intro n i nodes n' hr
    simp only [Expr.number, infer] at hr
    obtain ⟨facts, hrule, hr⟩ := Except.bind_eq_ok.1 hr
    cases hr
    have hrule' := refRule_within h (by simp) hrule
    refine ⟨_, Except.bind_eq_ok.2 ⟨_, hrule', rfl⟩, fun hn => by rw [hn], ?_⟩
    exact fun a a' c c' ha ha' => repeats_leaf (fun _ => rfl) ha ha'
  | call span func args ih =>
    intro n i nodes n' hr
    simp only [Expr.number, infer, stampExpr] at hr ⊢
    obtain ⟨⟨infos, below⟩, hall, hr⟩ := Except.bind_eq_ok.1 hr
    obtain ⟨facts, hrule, hr⟩ := Except.bind_eq_ok.1 hr
    cases hr
    rw [Expr.references_call] at h
    obtain ⟨below', hall', hsame, hstamp⟩ := restamps_all
      (fun e he => ih e he (h.mono fun _ => List.mem_flatMap_of_mem he)) n' hall
    refine ⟨_, Except.bind_eq_ok.2 ⟨_, hall',
      Except.bind_eq_ok.2 ⟨_, callRule_within h hrule, rfl⟩⟩, fun hn => ?_,
      fun a a' c c' ha ha' => ?_⟩
    · subst hn
      rw [hsame rfl]
    · obtain ⟨hbelow, hi⟩ := knows_node.1 ha
      obtain ⟨hbelow', hi'⟩ := knows_node.1 ha'
      obtain ⟨f, hf, -⟩ := dtype_callRule hrule
      refine repeats_info hi hi' ((hstamp a a' c c' hbelow hbelow').bind
        fun ss k ss' k' hss hsk => ?_)
      refine repeats_stampCall hf (h.registry _ _ hf) (fun hs => ⟨by rw [hs.1], (hsk hs).2⟩) hss
        fun hs => (hsk hs).1
  | tuple span elems ih =>
    intro n i nodes n' hr
    simp only [Expr.number, infer, stampExpr] at hr ⊢
    obtain ⟨⟨infos, below⟩, hall, hr⟩ := Except.bind_eq_ok.1 hr
    obtain ⟨facts, hrule, hr⟩ := Except.bind_eq_ok.1 hr
    cases hr
    rw [Expr.references_tuple] at h
    obtain ⟨below', hall', hsame, hstamp⟩ := restamps_all
      (fun e he => ih e he (h.mono fun _ => List.mem_flatMap_of_mem he)) n' hall
    refine ⟨_, Except.bind_eq_ok.2 ⟨_, hall', Except.bind_eq_ok.2 ⟨_, hrule, rfl⟩⟩,
      fun hn => ?_, fun a a' c c' ha ha' => ?_⟩
    · subst hn
      rw [hsame rfl]
    · obtain ⟨hbelow, hi⟩ := knows_node.1 ha
      obtain ⟨hbelow', hi'⟩ := knows_node.1 ha'
      refine repeats_info hi hi' ((hstamp a a' c c' hbelow hbelow').bind
        fun ss k ss' k' hss hsk => ?_)
      have hlen : ss'.length = ss.length := by simpa using congrArg List.length hss
      rw [hlen]
      refine repeats_mark (fun hs => ⟨by rw [hs.1], (hsk hs).2⟩) (fun m m' hm => ?_)
        fun hs m => by rw [(hsk hs).1]
      rw [StampedExpr.unnumbered_tuple, StampedExpr.unnumbered_tuple, hm, hss]
  | select span c t f ihc iht ihf =>
    intro n i nodes n' hr
    simp only [Expr.number, infer, stampExpr] at hr ⊢
    obtain ⟨⟨ic, bc⟩, hc, hr⟩ := Except.bind_eq_ok.1 hr
    obtain ⟨⟨it, bt⟩, ht, hr⟩ := Except.bind_eq_ok.1 hr
    obtain ⟨⟨iF, bf⟩, hf, hr⟩ := Except.bind_eq_ok.1 hr
    obtain ⟨facts, hrule, hr⟩ := Except.bind_eq_ok.1 hr
    cases hr
    rw [Expr.references_select] at h
    obtain ⟨bc', hc', hsamec, hstampc⟩ := ihc (h.mono (by simp)) n' hc
    obtain ⟨bt', ht', hsamet, hstampt⟩ := iht (h.mono (by simp)) (c.number n').2 ht
    obtain ⟨bf', hf', hsamef, hstampf⟩ := ihf (h.mono (by simp)) (t.number (c.number n').2).2 hf
    refine ⟨_, Except.bind_eq_ok.2 ⟨_, hc', Except.bind_eq_ok.2 ⟨_, ht',
      Except.bind_eq_ok.2 ⟨_, hf', Except.bind_eq_ok.2 ⟨_, hrule, rfl⟩⟩⟩⟩, fun hn => ?_,
      fun a a' k k' ha ha' => ?_⟩
    · subst hn
      rw [hsamec rfl, hsamet rfl, hsamef rfl]
    · obtain ⟨hbelow, hi⟩ := knows_node.1 ha
      obtain ⟨hbelow', hi'⟩ := knows_node.1 ha'
      simp only [knows_append] at hbelow hbelow'
      refine repeats_info hi hi' ?_
      refine (hstampc a a' k k' hbelow.1 hbelow'.1).bind fun sc k₁ sc' k₁' hsc hkc => ?_
      have htrue := (hstampt a a' k₁ k₁' hbelow.2.1 hbelow'.2.1).imp
        fun hs => ⟨by rw [hs.1], (hkc hs).2⟩
      refine htrue.bind fun st k₂ st' k₂' hst hkt => ?_
      have hfalse := (hstampf a a' k₂ k₂' hbelow.2.2 hbelow'.2.2).imp
        fun hs => ⟨by rw [hs.1], (hkt hs).2⟩
      refine hfalse.bind fun sf k₃ sf' k₃' hsf hkf => ?_
      exact repeats_stampSelect (fun hs => ⟨by rw [hs.1], (hkf hs).2⟩) hsc hst hsf
        fun hs => ⟨(hkc hs).1, (hkt hs).1, (hkf hs).1⟩
  | reduce span op reduced arg ih =>
    intro n i nodes n' hr
    simp only [Expr.number, infer, stampExpr] at hr ⊢
    obtain ⟨⟨ia, below⟩, harg, hr⟩ := Except.bind_eq_ok.1 hr
    obtain ⟨facts, hrule, hr⟩ := Except.bind_eq_ok.1 hr
    cases hr
    rw [Expr.references_reduce] at h
    obtain ⟨below', harg', hsame, hstamp⟩ := ih h n' harg
    refine ⟨_, Except.bind_eq_ok.2 ⟨_, harg',
      Except.bind_eq_ok.2 ⟨_, explicitReduceRule_within h hrule, rfl⟩⟩, fun hn => ?_,
      fun a a' c c' ha ha' => ?_⟩
    · subst hn
      rw [hsame rfl]
    · obtain ⟨hbelow, hi⟩ := knows_node.1 ha
      obtain ⟨hbelow', hi'⟩ := knows_node.1 ha'
      refine repeats_info hi hi' ((hstamp a a' c c' hbelow hbelow').bind fun s k s' k' hs hsk => ?_)
      refine repeats_mark (fun hs => ⟨by rw [hs.1], (hsk hs).2⟩) (fun m m' hm => ?_)
        fun hs m => by rw [(hsk hs).1]
      rw [StampedExpr.unnumbered_reduce, StampedExpr.unnumbered_reduce, hm, hs]

end Stamping
end LoopNest
