import LoopNest.Proofs.Analysis.Exactness
import LoopNest.Proofs.Pipeline
import LoopNest.Proofs.Replacement

/-! The spellings of a reduction. A reducer may be called like a function, or its reduction written
out, without axes or with the innermost axis of the argument. Wherever one stands in a module the
others may stand, too: each pass gives the same result or the same fault. -/
namespace LoopNest

/-- Two programs come to the same in every pass: to the same result or the same fault. -/
structure Program.Alike (registry : Registry) (p p' : Program) : Prop where
  analysis : p'.analysis registry = p.analysis registry
  stamped : p'.stamped registry = p.stamped registry
  carriers : p'.carriers registry = p.carriers registry
  code : p'.code registry = p.code registry
  checked : p'.checked registry = p.checked registry
  inlined : p'.inlined registry = p.inlined registry

namespace Program

variable {registry : Registry} {p p' : Program}

/-- The code of a program, by its stamps. -/
theorem code_eq (p : Program) (registry : Registry) :
    p.code registry = (p.stamped registry >>= fun sm =>
      CarrierMap.ofModule sm >>= fun carriers => LoopModule.ofStamped sm carriers registry) := by
  rw [code, stamped, analysis, bind_assoc]

/-- All passes follow the first two. -/
theorem alike_of_graph (ha : p'.analysis registry = p.analysis registry)
    (hs : ∀ a, p.analysis registry = .ok a →
      StampedModule.ofGraph p'.graph a registry = StampedModule.ofGraph p.graph a registry) :
    Alike registry p p' := by
  have hs : p'.stamped registry = p.stamped registry := by
    rw [stamped, stamped, ha]
    cases h : p.analysis registry with
    | error fault => rfl
    | ok a => exact hs a h
  have hcode : p'.code registry = p.code registry := by rw [code_eq, code_eq, hs]
  refine ⟨ha, hs, ?_, hcode, ?_, ?_⟩
  · rw [carriers, carriers, hs]
  · rw [checked, checked, hcode]
  · rw [inlined, inlined, hcode]

theorem Alike.verdict (h : Alike registry p p') (q : Pass) :
    p'.verdict registry q = p.verdict registry q := by
  cases q with
  | analyze => rw [Program.verdict, Program.verdict, h.analysis]
  | stamp => rw [Program.verdict, Program.verdict, h.stamped]
  | carriers => rw [Program.verdict, Program.verdict, h.carriers]
  | lower => rw [Program.verdict, Program.verdict, h.code]
  | verify => rw [Program.verdict, Program.verdict, h.checked]
  | inline => rw [Program.verdict, Program.verdict, h.inlined]

theorem Alike.renew (h : Alike registry p p') (x : Artifacts) (done : List Pass) :
    x.renew p' registry done = x.renew p registry done := by
  rw [Artifacts.renew, Artifacts.renew, h.analysis, h.stamped, h.carriers, h.code, h.inlined]

end Program

namespace Session

/-- The session with another program. -/
def withProgram (s : Session) (p : Program) : Session := { s with program := p }

variable {s : Session} {p : Program} {done ps : List Pass}

/-- Programs that come to the same in every pass run alike. -/
theorem performAll_alike (h : Program.Alike s.registry s.program p)
    (hdone : ∀ q ∈ done, s.program.verdict s.registry q = .ok ())
    (hps : Pass.ordered done ps = true) :
    ((s.withProgram p).renew done).performAll ps =
      (((s.renew done).performAll ps).1, ((s.renew done).performAll ps).2.withProgram p) := by
  have hrenew (done : List Pass) :
      (s.withProgram p).renew done = (s.renew done).withProgram p := by
    rw [renew, renew]
    exact congrArg (fun x => { s with program := p, artifacts := x }) (h.renew _ done)
  induction ps generalizing done with
  | nil => rw [performAll, performAll, hrenew]
  | cons q ps ih =>
    rw [Pass.ordered, Bool.and_eq_true] at hps
    have hreads : ∀ r ∈ q.reads, r ∈ done := by simpa using hps.1
    have hdone' : ∀ r ∈ done, (s.withProgram p).program.verdict s.registry r = .ok () :=
      fun r hr => (h.verdict r).trans (hdone r hr)
    cases hq : s.program.verdict s.registry q with
    | error d =>
      have hq' := (h.verdict q).trans hq
      rw [performAll_renew_error hdone hreads hq,
        performAll_renew_error (s := s.withProgram p) hdone' hreads hq', hrenew]
      rfl
    | ok u =>
      have hmore : ∀ r ∈ done ++ [q], s.program.verdict s.registry r = .ok () :=
        List.forall_mem_append.2 ⟨hdone, List.forall_mem_singleton.2 hq⟩
      have hq' := (h.verdict q).trans hq
      rw [performAll_renew_ok hdone hreads hq,
        performAll_renew_ok (s := s.withProgram p) hdone' hreads hq', ih hmore hps.2]

theorem run_alike {p p' : Program} (h : Program.Alike s.registry p p') (terminal : Pass)
    (inlining : Bool) :
    (s.withProgram p').run terminal inlining =
      (((s.withProgram p).run terminal inlining).1,
        ((s.withProgram p).run terminal inlining).2.withProgram p') :=
  performAll_alike (s := s.withProgram p) h (List.forall_mem_nil _) (ordered_plan terminal inlining)

end Session

namespace Analysis

variable {env : Env} {f : Signature} {n : Node} {op : String} {hint : Option Axes} {arg : GraphExpr}

theorem reducedAxes_innermost (rest : Axes) (a : Axis) (span : Span) :
    reducedAxes (some [a]) (rest ++ [a]) span = reducedAxes none (rest ++ [a]) span := by
  simp [reducedAxes, Axes.dropTail?, Axes.splitLast]

/-- A reduction that names no axes, or the innermost one of its argument. -/
def Innermost (env : Env) (hint : Option Axes) (arg : GraphExpr) : Prop :=
  hint = none ∨ ∃ a, hint = some [a] ∧
    ∀ r, infer env arg = .ok r → ∃ rest, r.info.axes = rest ++ [a]

theorem reducedAxes_of_innermost (h : Innermost env hint arg) {r : Inference}
    (hr : infer env arg = .ok r) (span : Span) :
    reducedAxes hint r.info.axes span = reducedAxes none r.info.axes span := by
  rcases h with rfl | ⟨a, rfl, h⟩
  · rfl
  · obtain ⟨rest, hrest⟩ := h r hr
    rw [hrest, reducedAxes_innermost]

/-- A reducer that is called infers what its reduction infers. -/
theorem infer_respell (hf : env.registry.find? op = some f) (hkind : f.kind = .reduce)
    (hhint : Innermost env hint arg) :
    infer env (.reduce n op hint arg) = infer env (.call n op [arg]) := by
  rw [infer, infer, inferAll, inferAll]
  cases hr : infer env arg with
  | error fault => rfl
  | ok r =>
    have haxes := reducedAxes_of_innermost hhint hr n.span
    have hrule : explicitReduceRule env op hint r.info n.span =
        callRule env op [r.info] n.span := by
      simp only [explicitReduceRule, callRule, function, hf, hkind, reduceRule, haxes, bind,
        Except.bind]
    simp only [bind, Except.bind, pure, Except.pure, hrule, List.append_nil]

/-- What is inferred for a call of a reducer is a reduction. -/
theorem reduction_of_infer (hf : env.registry.find? op = some f) (hkind : f.kind = .reduce)
    {r : Inference} (hr : infer env (.call n op [arg]) = .ok r) :
    ∃ reduction, r.info.reduction = some reduction := by
  obtain ⟨rs, i, hrs, hrule, rfl⟩ := infer_call_eq_ok.1 hr
  obtain ⟨ra, _, -, hnil, rfl⟩ := List.forall₂_cons_left_iff.1 hrs
  cases hnil
  rw [callRule, function, hf] at hrule
  obtain ⟨_, hsig, hrule⟩ := Except.bind_eq_ok.1 hrule
  cases hsig
  rw [hkind] at hrule
  obtain ⟨axes, -, hrule⟩ := Except.bind_eq_ok.1 hrule
  obtain ⟨dtype, -, hrule⟩ := Except.bind_eq_ok.1 hrule
  cases hrule
  exact ⟨_, rfl⟩

end Analysis

namespace Stamping

variable {a : Analysis} {registry : Registry} {f : Signature} {n : Node} {op : String}
  {hint : Option Axes} {arg : GraphExpr}

theorem stampExpr_respell (hf : registry.find? op = some f) (hkind : f.kind = .reduce)
    {i : NodeFacts} {r : Reduction} (hi : a.node? n.id = some i) (hr : i.reduction = some r) :
    stampExpr a registry (.reduce n op hint arg) = stampExpr a registry (.call n op [arg]) := by
  rw [stampExpr, stampExpr, stampAll, stampAll, info, hi]
  have hcall (e : StampedExpr) : stampCall registry i n op [e] =
      (return .reduce (← mark n i.stamp (some (.reduce r.last))) op r.reduced e) := by
    rw [stampCall, hf, hr, Option.map_some, hkind]
  simp only [pure_bind, bind_assoc, hcall, hr, Option.getD_some]

end Stamping

section Modules

open Analysis

/-- Where an expression behind some declarations has axes, the innermost is the given one. -/
def EndsIn (inputs : InputTable) (registry : Registry) (before : List (Declaration Span))
    (e : SourceExpr) (a : Axis) : Prop :=
  ∀ known s, ofGraph ⟨Graph.numberFrom 0 before⟩ inputs registry = .ok known →
    HasStamp ⟨inputs, registry, known.decls⟩ (e.number 0).1 s → ∃ rest, s.axes = rest ++ [a]

variable {inputs : InputTable} {registry : Registry} {before after : List (Declaration Span)}
  {d : Declaration Span} {span : Span} {op : String} {f : Signature} {hint : Option Axes}
  {e body : SourceExpr}

/-- The numbers of its nodes do not matter for what is inferred for an expression. -/
theorem innermost_of_endsIn (hnames : (before.map Declaration.name).Nodup) {known : Analysis}
    (hknown : ofGraph ⟨Graph.numberFrom 0 before⟩ inputs registry = .ok known)
    (hhint : hint = none ∨ ∃ a, hint = some [a] ∧ EndsIn inputs registry before e a) (k : Nat) :
    Innermost ⟨inputs, registry, known.decls⟩ hint (e.number k).1 := by
  refine hhint.imp_right ?_
  rintro ⟨a, rfl, hends⟩
  refine ⟨a, rfl, fun r hr => ?_⟩
  obtain ⟨nodes, hr₀, -⟩ := Stamping.restamps e ⟨.refl _, .refl _, fun _ _ _ h => h⟩ 0 hr
  have hdistinct : (known.decls.map Prod.fst).Nodup := by
    rw [map_fst_decls_ofGraph hknown, StampedModule.map_name_numberFrom]
    exact hnames
  exact hends known _ hknown ((hasStamp_iff_infers hdistinct _ _).2 ⟨_, hr₀, rfl⟩)

/-- The call of a reducer that stands in a graph is known to be a reduction. -/
theorem exists_reduction {ds : List (Declaration Span)} {g : Graph} {a : Analysis}
    (hg : Graph.ofDeclarations ds = .ok g) (ha : ofGraph g inputs registry = .ok a)
    (hf : registry.find? op = some f) (hkind : f.kind = .reduce)
    {pre post : List (Declaration Node)} {d : Declaration Node}
    (hd : g.declarations = pre ++ d :: post) {n : Node} {arg : GraphExpr}
    (hx : .call n op [arg] ∈ d.body.postorder) :
    ∃ i r, a.node? n.id = some i ∧ i.reduction = some r := by
  obtain ⟨r, hr, hnodes, -⟩ := exists_infer hg ha hd
  obtain ⟨⟨id, i⟩, hp, rfl, below, hx⟩ := exists_of_forall₂ (entries_of_infer hr) hx
  obtain ⟨reduction, hreduction⟩ := reduction_of_infer hf hkind hx
  exact ⟨i, reduction, hnodes _ hp, hreduction⟩

/-- Declarations with a reduction spelled in another way come to the same in every pass. -/
theorem alike_respell {g : Graph} (hg : Graph.ofDeclarations (before ++ d :: after) = .ok g)
    (hf : registry.find? op = some f) (hkind : f.kind = .reduce)
    (hhint : hint = none ∨ ∃ a, hint = some [a] ∧ EndsIn inputs registry before e a)
    (hbody : Expr.Replaces (.call span op [e]) (.reduce span op hint e) d.body body) :
    Program.Alike registry ⟨inputs, g⟩
      ⟨inputs, ⟨Graph.numberFrom 0 (before ++ { d with body := body } :: after)⟩⟩ := by
  obtain ⟨hdistinct, heq⟩ := StampedModule.ofDeclarations_eq_ok.1 hg
  rw [List.map_append] at hdistinct
  have hsize (k : Nat) : ((.reduce span op hint e : SourceExpr).number k).2 =
      ((.call span op [e] : SourceExpr).number k).2 := rfl
  have hnumber := hbody.number hsize
  obtain ⟨k, rest, hsplit, hsplit'⟩ := @Graph.numberFrom_replace before after d
    { d with body := body } (fun next => (hnumber next).size) 0
  obtain ⟨j, hreplaces⟩ := (hnumber k).numbered
  have hd : g.declarations = Graph.numberFrom 0 before ++ d.numbered k :: rest := by
    rw [heq, hsplit]
  rw [hsplit']
  refine Program.alike_of_graph ?_ fun a ha => ?_
  · change extend inputs registry .empty _ = extend inputs registry .empty g.declarations
    rw [hd]
    refine extend_replace rfl fun known hknown => ?_
    have hinner := innermost_of_endsIn hdistinct.of_append_left hknown hhint j
    exact infer_replace (infer_respell hf hkind hinner) hreplaces
  · obtain ⟨i, r, hi, hr⟩ := exists_reduction hg ha hf hkind hd hreplaces.mem_postorder
    have hstamp := Stamping.stampExpr_replace
      (Stamping.stampExpr_respell hf hkind hi hr) hreplaces
    have hdecl (topo : Nat) :
        Stamping.stampDecl a registry topo ({ d with body := body }.numbered k) =
          Stamping.stampDecl a registry topo (d.numbered k) :=
      congrArg (· >>= _) hstamp
    rw [StampedModule.ofGraph, StampedModule.ofGraph, hd]
    refine congrArg (· >>= _) ?_
    exact Stamping.stampDecls_replace hdecl rfl 0 .zero

/-- A call of a reducer with one argument, wherever it stands in a module, may be written as a
reduction without axes, or with the axis that those of the argument end in. The module is refused
with the same fault, or each pass gives the same result or the same fault, and all runs are the same
but for the program. -/
theorem reduction_spellings_interchangeable {m : SourceModule}
    (hm : m.declarations = before ++ d :: after) (hf : registry.find? op = some f)
    (hkind : f.kind = .reduce)
    (hhint : hint = none ∨ ∃ a, hint = some [a] ∧
      ∀ inputs, InputTable.ofDecls m.inputs = .ok inputs → EndsIn inputs registry before e a)
    (hbody : Expr.Replaces (.call span op [e]) (.reduce span op hint e) d.body body) :
    let m' := { m with declarations := before ++ { d with body := body } :: after }
    (∃ fault, Program.ofModule m = .error fault ∧ Program.ofModule m' = .error fault) ∨
    ∃ p p', Program.ofModule m = .ok p ∧ Program.ofModule m' = .ok p' ∧
      Program.Alike registry p p' ∧
      ∀ (s : Session) (terminal : Pass) (inlining : Bool), s.registry = registry →
        (s.withProgram p').run terminal inlining =
          (((s.withProgram p).run terminal inlining).1,
            ((s.withProgram p).run terminal inlining).2.withProgram p') := by
  intro m'
  cases hi : InputTable.ofDecls m.inputs with
  | error fault =>
    exact .inl ⟨fault, Except.bind_eq_error.2 (.inl hi), Except.bind_eq_error.2 (.inl hi)⟩
  | ok inputs =>
    have hhint' : hint = none ∨ ∃ a, hint = some [a] ∧ EndsIn inputs registry before e a :=
      hhint.imp_right fun ⟨a, ha, hends⟩ => ⟨a, ha, hends inputs hi⟩
    rcases @Graph.ofDeclarations_replace before after d { d with body := body } rfl rfl with
      ⟨fault, hg, hg'⟩ | ⟨hg, hg'⟩
    · rw [← hm] at hg
      exact .inl ⟨fault, Except.bind_eq_error.2 (.inr ⟨_, hi, Except.bind_eq_error.2 (.inl hg)⟩),
        Except.bind_eq_error.2 (.inr ⟨_, hi, Except.bind_eq_error.2 (.inl hg')⟩)⟩
    · have halike := alike_respell hg hf hkind hhint' hbody
      rw [← hm] at hg halike
      refine .inr ⟨_, _, Except.bind_eq_ok.2 ⟨_, hi, Except.bind_eq_ok.2 ⟨_, hg, rfl⟩⟩,
        Except.bind_eq_ok.2 ⟨_, hi, Except.bind_eq_ok.2 ⟨_, hg', rfl⟩⟩, halike, ?_⟩
      rintro s terminal inlining rfl
      exact Session.run_alike halike terminal inlining

/-- The lines of orders, at twice their price. -/
def doubled : Declaration Span :=
  ⟨"doubled", .value, .call .zero "multiply"
    [.input .zero ["orders", "lines", "price"], .constant .zero (.integer 2)], .zero⟩

/-- The mean line of each order, with some expression for the number of its lines. -/
def lineMean (count : SourceExpr) : Declaration Span :=
  ⟨"mean", .value, .call .zero "divide" [.call .zero "sum" [.ref .zero "doubled"], count], .zero⟩

/-- The largest mean. -/
def largestMean : Declaration Span :=
  ⟨"largest", .value, .call .zero "max" [.ref .zero "mean"], .zero⟩

def linePrice : DeclaredInput :=
  ⟨["orders", "lines", "price"], [⟨"order"⟩, ⟨"line"⟩], .float, .zero⟩

def lineMeans (count : SourceExpr) : SourceModule :=
  ⟨[linePrice], [doubled, lineMean count, largestMean], .zero⟩

theorem endsIn_doubled :
    EndsIn (.put .empty linePrice) .builtins [doubled] (.ref .zero "doubled") ⟨"line"⟩ := by
  intro known s hknown hs
  obtain ⟨a, ha, hdecls⟩ : ∃ a,
      ofGraph ⟨Graph.numberFrom 0 [doubled]⟩ (.put .empty linePrice) .builtins = .ok a ∧
        decide (a.decls = [("doubled", ⟨[⟨"order"⟩, ⟨"line"⟩], .float⟩)]) = true :=
    Except.exists_of_any (by decide +kernel)
  cases ha.symm.trans hknown
  cases hs with
  | ref hmem =>
    rw [of_decide_eq_true hdecls] at hmem
    cases List.mem_singleton.1 hmem
    exact ⟨[⟨"order"⟩], rfl⟩

/-- The number of lines in two spellings. -/
def calledCount : SourceExpr := .call .zero "count" [.ref .zero "doubled"]

def namedCount : SourceExpr := .reduce .zero "count" (some [⟨"line"⟩]) (.ref .zero "doubled")

/-- Both spellings compile to the same code. -/
theorem lineMeans_spelled_alike :
    ∃ p p' m, Program.ofModule (lineMeans calledCount) = .ok p ∧
      Program.ofModule (lineMeans namedCount) = .ok p' ∧ p.Alike .builtins p' ∧
      p.inlined .builtins = .ok m := by
  obtain ⟨f, hf, hkind⟩ : ∃ f, Registry.builtins.find? "count" = some f ∧
      decide (f.kind = .reduce) = true :=
    (Option.any_eq_true _ _).1 (by decide +kernel)
  have hinputs : InputTable.ofDecls [linePrice] = .ok (.put .empty linePrice) := rfl
  have hbody : Expr.Replaces calledCount namedCount (lineMean calledCount).body
      (lineMean namedCount).body :=
    @Expr.Replaces.arg Span _ _ _ .zero "divide" [.call .zero "sum" [.ref .zero "doubled"]] [] _ _
      .here
  obtain ⟨m, hm, -⟩ : ∃ m, (Program.ofModule (lineMeans calledCount) >>= fun p =>
      p.inlined .builtins) = .ok m ∧ true = true :=
    Except.exists_of_any (by decide +kernel)
  obtain ⟨p, hp, hm⟩ := Except.bind_eq_ok.1 hm
  have hspelled := reduction_spellings_interchangeable (m := lineMeans calledCount) rfl hf
    (of_decide_eq_true hkind) (.inr ⟨_, rfl, fun inputs h => by
      cases hinputs.symm.trans h
      exact endsIn_doubled⟩) hbody
  rcases hspelled with ⟨fault, hfault, -⟩ | ⟨p₁, p', hp₁, hp', halike, -⟩
  · cases hp.symm.trans hfault
  · cases hp.symm.trans hp₁
    exact ⟨p, p', m, hp, hp', halike, hm⟩

end Modules
end LoopNest
