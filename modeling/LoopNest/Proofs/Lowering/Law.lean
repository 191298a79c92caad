import LoopNest.Proofs.Code.Scoping
import LoopNest.Proofs.Fallible
import LoopNest.Proofs.Lowering.Lookups
import LoopNest.Proofs.OrderedMaps

/-! Laws of lowering. A law says what holds of the code between two steps, of the lookups, and of
what steps do that succeed. If the few steps that touch the code keep a law, then lowering keeps it,
whatever the stamps of expressions say. With that, the log changes nothing, and where lowering
succeeds, more carriers and more functions change nothing either. -/
namespace LoopNest

theorem Carrier.choose_within {carriers carriers' : CarrierMap} (h : carriers.Within carriers')
    {axes : Axes} {e : StampedExpr} {path : FieldPath} (hc : choose axes e carriers = .ok path) :
    choose axes e carriers' = .ok path := by
  rw [choose] at hc ⊢
  split at hc
  · exact hc
  · split at hc
    · rename_i path' hfind
      rw [h _ _ hfind]
      exact hc
    · split at hc <;> cases hc

/-- An operation of which the result is computed from what it reads: it starts and ends no loop,
declares no accumulator and yields nothing. -/
structure Op.Computes (op : Op) : Prop where
  plain : op.isPlain = true
  inner : op.isDelimiter = false
  silent : (op.opcode == .yield) = false

/-- The yield of a value, and the ends of all loops. -/
def Emission.finish (st : Emission) (v : Reg) (span : Span) : Emission :=
  (st.emit none (.yield v) span).closeTo 0 span

namespace Lowering

theorem liftM_eq_ok {α : Type} {x : Except Diagnostic α} {a : α} {st st' : Emission}
    (h : (liftM x : Lower α) st = .ok (a, st')) : x = .ok a ∧ st = st' := by
  obtain ⟨b, hx, hp⟩ := Except.bind_eq_ok.1 h
  cases hp
  exact ⟨hx, rfl⟩

/-- A path is followed from the element of an open loop or from a root field. -/
theorem follow_eq_ok {test : Frame → Bool} {path : FieldPath} {dtype : Option DType} {span : Span}
    {st st' : Emission} {r : Reg} (h : follow test path dtype span st = .ok (r, st')) :
    (∃ f, st.frames.find? test = some f ∧
      st.walk f.element dtype span (path.drop f.carrier.length) = (r, st')) ∨
    ∃ root keys, st.frames.find? test = none ∧ path = root :: keys ∧
      (st.value (.loadInput root) span).2.walk st.counter.nextReg.1 dtype span keys =
        (r, st') := by
  obtain ⟨⟨base, keys⟩, st₁, henter, hwalk⟩ := StateT.bind_eq_ok.1 h
  have hwalk : st₁.walk base dtype span keys = (r, st') := Except.ok.inj hwalk
  obtain ⟨_, _, hget, henter⟩ := StateT.bind_eq_ok.1 henter
  cases hget
  cases hf : st.frames.find? test with
  | some f =>
    simp only [hf] at henter
    cases henter
    exact .inl ⟨f, rfl, hwalk⟩
  | none =>
    cases path with
    | nil =>
      simp only [hf] at henter
      cases henter
    | cons root rest =>
      simp only [hf] at henter
      obtain ⟨b, st₂, hload, hp⟩ := StateT.bind_eq_ok.1 henter
      cases StateT.pure_eq_ok.1 hp
      cases hload
      exact .inr ⟨root, _, rfl, rfl, hwalk⟩

/-- A loop over the last of some axes is opened over the collection at its carrier. -/
theorem openLoop_eq_ok {env : Env} {anchor : StampedExpr} {logical : Axes} {axis : Axis}
    {st st' : Emission} (haxis : logical.getLast? = some axis)
    (h : openLoop env anchor logical st = .ok ((), st')) :
    ∃ carrier c st₁, Carrier.choose logical anchor env.carriers = .ok carrier ∧
      collection carrier anchor.span st = .ok (c, st₁) ∧
      st' = st₁.openLoop logical axis carrier c anchor.span := by
  unfold openLoop at h
  simp only [haxis] at h
  obtain ⟨carrier, st₀, hlift, h⟩ := StateT.bind_eq_ok.1 h
  obtain ⟨c, st₁, hcollection, hopen⟩ := StateT.bind_eq_ok.1 h
  obtain ⟨hchoose, rfl⟩ := liftM_eq_ok hlift
  cases hopen
  exact ⟨carrier, c, st₁, hchoose, hcollection, rfl⟩

/-- An environment lies within another one with more carriers and functions. -/
structure Env.Within (env env' : Env) : Prop where
  carriers : env.carriers.Within env'.carriers
  registry : env.registry.Within env'.registry

theorem Env.Within.refl (env : Env) : env.Within env := ⟨.refl _, .refl _⟩

theorem identity_within {env env' : Env} (h : env.Within env') {op : String} {dtype : DType}
    {span : Span} {v : Literal} (hv : identity env op dtype span = .ok v) :
    identity env' op dtype span = .ok v := by
  rw [identity] at hv ⊢
  split at hv
  · cases hv
  · rename_i f hf
    rw [h.registry _ _ hf]
    exact hv

/-- Results in two environments: where the first one is a success, the other one is the same, and
if the environments are the same, then so are failures. -/
structure Env.Agree {α : Type} (env env' : Env) (x y : Except Diagnostic α) : Prop where
  ok : ∀ a, x = .ok a → y = .ok a
  same : env = env' → x = y

theorem Env.Agree.refl {α : Type} {env env' : Env} (x : Except Diagnostic α) :
    env.Agree env' x x :=
  ⟨fun _ h => h, fun _ => rfl⟩

/-- A law of lowering in an environment. -/
structure Law (env : Env) where
  /-- What holds of the code between two steps. -/
  Between : Emission → Prop
  /-- What holds of a lookup. -/
  Asked : Lookup → Prop
  /-- What steps do that succeed, with the lookups and the inputs on the way. -/
  Does : Emission → Emission → List Lookup → List InputUse → Prop
  /-- The register can be read. -/
  Known : Emission → Reg → Prop
  /-- The accumulator can be added to and read. -/
  Declared : Emission → AccId → Prop
  refl {st : Emission} : Between st → Does st st [] []
  trans {st st' st'' : Emission} {new new' : List Lookup} {uses uses' : List InputUse} :
    Does st st' new uses → Does st' st'' new' uses' → Does st st'' (new ++ new') (uses ++ uses')
  between {st st' : Emission} {new : List Lookup} {uses : List InputUse} :
    Does st st' new uses → Between st'
  known {st st' : Emission} {new : List Lookup} {uses : List InputUse} {r : Reg} :
    Does st st' new uses → Known st r → Known st' r
  declared {st st' : Emission} {new : List Lookup} {uses : List InputUse} {acc : AccId} :
    Does st st' new uses → Declared st acc → Declared st' acc
  value {st : Emission} {op : Op} (span : Span) : Between st → op.Computes →
    (∀ r ∈ op.inputs, Known st r) → (∀ acc ∈ Instr.uses ⟨none, op, span⟩, Declared st acc) →
    Does st (st.value op span).2 [] [] ∧ Known (st.value op span).2 (st.value op span).1
  emit {st : Emission} {op : Op} (span : Span) : Between st → op.Computes →
    (∀ r ∈ op.inputs, Known st r) → (∀ acc ∈ Instr.uses ⟨none, op, span⟩, Declared st acc) →
    Does st (st.emit none op span) [] []
  declareAccumulator {st : Emission} (op : String) (start : Literal) (dtype : DType) (span : Span) :
    Between st → Does st (st.declareAccumulator op start dtype span).2 [] [] ∧
      Declared (st.declareAccumulator op start dtype span).2
        (st.declareAccumulator op start dtype span).1
  closeLoops {st : Emission} (span : Span) (n : Nat) :
    Between st → Does st (st.closeLoops span n) [] []
  setFloor {st : Emission} (n : Nat) : Between st → Does st { st with floor := n } [] []
  input {st : Emission} (m : Mark) (path : FieldPath) : Between st →
    Asked ⟨.input m path, st⟩ ∧
      ∀ r st', inputValue path m.stamp.dtype m.span st = .ok (r, st') →
        Does st st' [⟨.input m path, st⟩] [⟨path, m.stamp.axes, m.span⟩] ∧ Known st' r
  openLoop {st : Emission} (anchor : StampedExpr) {logical : Axes} : Between st → logical ≠ [] →
    Asked ⟨.loop logical anchor, st⟩ ∧
      ∀ st', openLoop env anchor logical st = .ok ((), st') →
        Does st st' [⟨.loop logical anchor, st⟩] []

namespace Law

variable {env env' : Env} {L : Law env} {st : Emission} {α β : Type} {uses uses' : List InputUse}
  {post : Emission → α → Prop} {post' : Emission → β → Prop}

/-- From some code on, a step of logged lowering keeps a law, and a step of lowering in another
environment agrees with it. Where it succeeds, the postcondition holds of code and result. -/
def Holds (L : Law env) (env' : Env) (st : Emission) (x : Logged α) (y : Lower α)
    (uses : List InputUse) (post : Emission → α → Prop) : Prop :=
  ∀ log, ∃ new, (x st log).2 = log ++ new ∧ (∀ a ∈ new, L.Asked a) ∧
    env.Agree env' (x st log).1 (y st) ∧
    ∀ a st', (x st log).1 = .ok (a, st') → L.Does st st' new uses ∧ post st' a

theorem Holds.bind {x : Logged α} {y : Lower α} {f : α → Logged β} {g : α → Lower β}
    (h : L.Holds env' st x y uses post)
    (hf : ∀ a st' new, L.Does st st' new uses → post st' a →
      L.Holds env' st' (f a) (g a) uses' post') :
    L.Holds env' st (x >>= f) (y >>= g) (uses ++ uses') post' := by
  intro log
  obtain ⟨new, hlog, hasked, hagree, hok⟩ := h log
  have hy : (y >>= g) st = (y st).bind fun p => g p.1 p.2 := rfl
  rw [Logged.bind_apply, hy]
  rcases hx : x st log with ⟨d | ⟨a, st₁⟩, log₁⟩
  all_goals rw [hx] at hlog hagree hok
  · refine ⟨new, hlog, hasked, ⟨fun _ h => (nomatch h), fun henv => ?_⟩,
      fun _ _ h => nomatch h⟩
    rw [← hagree.same henv]
    rfl
  · obtain ⟨hdoes, hpost⟩ := hok a st₁ rfl
    obtain ⟨new', hlog', hasked', hagree', hok'⟩ := hf a st₁ new hdoes hpost log₁
    rw [hagree.ok _ rfl]
    refine ⟨new ++ new', ?_, List.forall_mem_append.2 ⟨hasked, hasked'⟩, hagree',
      fun b st₂ hb => ?_⟩
    · rw [← List.append_assoc, ← hlog, ← hlog']
    · obtain ⟨hdoes', hpost'⟩ := hok' b st₂ hb
      exact ⟨L.trans hdoes hdoes', hpost'⟩

/-- A sequence whose later steps read no inputs. -/
theorem Holds.last {x : Logged α} {y : Lower α} {f : α → Logged β} {g : α → Lower β}
    (h : L.Holds env' st x y uses post)
    (hf : ∀ a st' new, L.Does st st' new uses → post st' a →
      L.Holds env' st' (f a) (g a) [] post') :
    L.Holds env' st (x >>= f) (y >>= g) uses post' := by
  have hall := h.bind hf
  rwa [List.append_nil] at hall

theorem holds_quiet {y : Lower α}
    (h : ∀ a st', y st = .ok (a, st') → L.Does st st' [] [] ∧ post st' a) :
    L.Holds env' st (Logged.quiet y) y [] post :=
  fun log => ⟨[], (List.append_nil log).symm, List.forall_mem_nil _, .refl _, h⟩

theorem holds_asking {y y' : Lower α} {q : Query} (hasked : L.Asked ⟨q, st⟩)
    (hagree : env.Agree env' (y st) (y' st))
    (h : ∀ a st', y st = .ok (a, st') → L.Does st st' [⟨q, st⟩] uses ∧ post st' a) :
    L.Holds env' st (Logged.asking q y) y' uses post :=
  fun _ => ⟨[⟨q, st⟩], rfl, List.forall_mem_singleton.2 hasked, hagree, h⟩

theorem holds_pure (hst : L.Between st) {a : α} (ha : post st a) :
    L.Holds env' st (pure a) (pure a) [] post := by
  refine holds_quiet (y := pure a) fun b st' hb => ?_
  cases StateT.pure_eq_ok.1 hb
  exact ⟨L.refl hst, ha⟩

theorem holds_get (hst : L.Between st) :
    L.Holds env' st (Logged.quiet get) get [] fun _ _ => True := by
  refine holds_quiet fun a st' ha => ?_
  cases ha
  exact ⟨L.refl hst, trivial⟩

theorem holds_modify {f : Emission → Emission} (hf : L.Does st (f st) [] []) :
    L.Holds env' st (Logged.quiet (modify f)) (modify f) [] fun _ _ => True := by
  refine holds_quiet fun a st' ha => ?_
  cases ha
  exact ⟨hf, trivial⟩

theorem holds_fail (fault : Fault) (span : Span) :
    L.Holds env' st (Logged.quiet (fail fault span)) (fail fault span) uses post :=
  fun log => ⟨[], (List.append_nil log).symm, List.forall_mem_nil _, .refl _,
    fun _ _ h => nomatch h⟩

theorem holds_liftM (hst : L.Between st) {x y : Except Diagnostic α} (h : env.Agree env' x y) :
    L.Holds env' st (Logged.quiet (liftM x)) (liftM y) [] fun _ _ => True := by
  refine fun log => ⟨[], (List.append_nil log).symm, List.forall_mem_nil _, ⟨fun r hr => ?_,
    fun henv => ?_⟩, fun a st' ha => ?_⟩
  · obtain ⟨a, hx, hp⟩ := Except.bind_eq_ok.1 hr
    exact Except.bind_eq_ok.2 ⟨a, h.ok a hx, hp⟩
  · rw [h.same henv]
    rfl
  · obtain ⟨-, rfl⟩ := liftM_eq_ok ha
    exact ⟨L.refl hst, trivial⟩

theorem Holds.annotate {x : Logged α} {y : Lower α} (h : L.Holds env' st x y uses post)
    (f : Diagnostic → Diagnostic) :
    L.Holds env' st (Logged.annotate f x) (Lowering.annotate f y) uses post := by
  intro log
  obtain ⟨new, hlog, hasked, hagree, hok⟩ := h log
  unfold Logged.annotate Lowering.annotate
  refine ⟨new, hlog, hasked, ⟨fun r hr => ?_, fun henv => by rw [hagree.same henv]⟩,
    fun a st' ha => hok a st' (Except.mapError_eq_ok.1 ha)⟩
  rw [hagree.ok r (Except.mapError_eq_ok.1 hr)]
  rfl

theorem holds_forM (hst : L.Between st) {l : List β} {f : β → Logged Unit} {g : β → Lower Unit}
    (hf : ∀ b ∈ l, ∀ st', L.Between st' → L.Holds env' st' (f b) (g b) [] fun _ _ => True) :
    L.Holds env' st (l.forM f) (l.forM g) [] fun _ _ => True := by
  induction l generalizing st with
  | nil => exact holds_pure hst trivial
  | cons b l ih =>
    obtain ⟨hb, hl⟩ := List.forall_mem_cons.1 hf
    exact (hb st hst).bind fun _ _ _ hdoes _ => ih (L.between hdoes) hl

theorem holds_value (hst : L.Between st) {op : Op} {span : Span} (hop : op.Computes)
    (hregs : ∀ r ∈ op.inputs, L.Known st r)
    (haccs : ∀ acc ∈ Instr.uses ⟨none, op, span⟩, L.Declared st acc) :
    L.Holds env' st (Logged.quiet (Lowering.value op span)) (Lowering.value op span) []
      L.Known := by
  refine holds_quiet fun r st' h => ?_
  cases h
  exact L.value span hst hop hregs haccs

theorem Holds.holding {x : Logged α} {y : Lower α} (hst : L.Between st)
    (hx : ∀ st' new, L.Does st st' new [] →
      L.Holds env' st' x y uses fun _ _ => True) :
    L.Holds env' st (Logged.holding x) (Lowering.holding y) uses fun _ _ => True := by
  refine (holds_get hst).bind fun _ st₁ _ h₁ _ =>
    (holds_modify (L.setFloor _ (L.between h₁))).bind fun _ st₂ _ h₂ _ => ?_
  refine (hx st₂ _ (L.trans h₁ h₂)).last fun _ st₃ _ h₃ _ =>
    (holds_modify (L.setFloor _ (L.between h₃))).bind fun _ _ _ h₄ _ => ?_
  exact holds_pure (L.between h₄) trivial

section Within

variable (henv : env.Within env')
include henv

theorem holds_openLoop (hst : L.Between st) (anchor : StampedExpr) {logical : Axes}
    (hne : logical ≠ []) :
    L.Holds env' st (Logged.openLoop env anchor logical) (Lowering.openLoop env' anchor logical) []
      fun _ _ => True := by
  obtain ⟨hasked, hdoes⟩ := L.openLoop anchor hst hne
  refine holds_asking hasked ⟨fun r hr => ?_, fun h => by rw [h]⟩
    fun _ st' h => ⟨hdoes st' h, trivial⟩
  have haxis : logical.getLast? = some (logical.getLast hne) := List.getLast?_eq_some_getLast hne
  unfold Lowering.openLoop at hr ⊢
  simp only [haxis] at hr ⊢
  obtain ⟨carrier, st₁, hlift, hr⟩ := StateT.bind_eq_ok.1 hr
  obtain ⟨hchoose, rfl⟩ := liftM_eq_ok hlift
  refine StateT.bind_eq_ok.2 ⟨carrier, st, ?_, hr⟩
  rw [Carrier.choose_within henv.carriers hchoose]
  rfl

theorem holds_align (hst : L.Between st) (target : Axes) (anchor : StampedExpr) :
    L.Holds env' st (Logged.align env target anchor) (Lowering.align env' target anchor) []
      fun _ _ => True := by
  refine (holds_get hst).bind fun _ _ _ h₁ _ => ?_
  dsimp only
  split
  · exact holds_pure (L.between h₁) trivial
  · refine (holds_modify (L.closeLoops _ _ (L.between h₁))).bind fun _ _ _ h₂ _ =>
      (holds_get (L.between h₂)).bind fun _ _ _ h₃ _ =>
        holds_forM (L.between h₃) fun k hk st' hst' => ?_
    have hk := List.mem_range'_1.1 hk
    refine holds_openLoop henv hst' anchor fun hnil => ?_
    have := congrArg List.length hnil
    rw [List.length_take, List.length_nil] at this
    omega

theorem holds_openReduction (hst : L.Between st) (m : Mark) (op : String) (reduced : Axes)
    (arg : StampedExpr) :
    L.Holds env' st (Logged.openReduction env m op reduced arg)
      (Lowering.openReduction env' m op reduced arg) [] fun _ _ => True := by
  refine holds_forM hst fun k hk st' hst' => ?_
  have hk := List.mem_range'_1.1 hk
  refine (holds_openLoop henv hst' arg fun hnil => ?_).annotate _
  have := congrArg List.length hnil
  rw [List.length_append, List.length_take, List.length_nil] at this
  omega

theorem Holds.reduction {x : Logged Reg} {y : Lower Reg}
    (hx : ∀ st', L.Between st' → L.Holds env' st' x y uses L.Known) (hst : L.Between st) (m : Mark)
    (op : String) (reduced : Axes) (arg : StampedExpr) :
    L.Holds env' st (Logged.reduction env m op reduced arg x)
      (Lowering.reduction env' m op reduced arg y) uses L.Known := by
  unfold Logged.reduction Lowering.reduction
  split
  · exact holds_fail _ _
  · split
    · exact holds_fail _ _
    · refine (holds_liftM hst ⟨fun _ h => identity_within henv h, fun h => by rw [h]⟩).bind
        fun start _ _ h₀ _ => (holds_align henv (L.between h₀) _ _).bind fun _ st₁ _ h₁ _ => ?_
      -- the accumulator stays declared along all that follows
      have hdeclare : L.Holds env' st₁ (Logged.quiet (modifyGet fun e =>
          e.declareAccumulator op start m.stamp.dtype m.span)) (modifyGet fun e =>
          e.declareAccumulator op start m.stamp.dtype m.span) [] L.Declared := by
        refine holds_quiet fun acc st' h => ?_
        cases h
        exact L.declareAccumulator op start m.stamp.dtype m.span (L.between h₁)
      refine hdeclare.bind fun acc st₂ _ h₂ hacc => (holds_get (L.between h₂)).bind
        fun _ st₃ _ h₃ _ => (holds_openReduction henv (L.between h₃) _ _ _ _).bind
          fun _ st₄ _ h₄ _ => ?_
      have hacc₄ := L.declared h₄ (L.declared h₃ hacc)
      have hfeed (st' : Emission) (new : List Lookup) (h : L.Does st₄ st' new []) :
          L.Holds env' st'
            (x >>= fun v => Logged.quiet (Lowering.emit (.accumulate acc op v) m.span))
            (y >>= fun v => Lowering.emit (.accumulate acc op v) m.span) uses fun _ _ => True := by
        refine (hx st' (L.between h)).last fun v st₅ _ h₅ hv => holds_modify ?_
        exact L.emit m.span (L.between h₅) ⟨rfl, rfl, rfl⟩ (List.forall_mem_singleton.2 hv)
          (List.forall_mem_singleton.2 (L.declared h₅ (L.declared h hacc₄)))
      refine (Holds.holding (L.between h₄) hfeed).last fun _ st₅ _ h₅ _ =>
        (holds_modify (L.closeLoops _ _ (L.between h₅))).bind fun _ st₆ _ h₆ _ => ?_
      exact holds_value (L.between h₆) ⟨rfl, rfl, rfl⟩ (List.forall_mem_nil _)
        (List.forall_mem_singleton.2 (L.declared h₆ (L.declared h₅ hacc₄)))

omit henv in
theorem holds_lowerAll {es : List StampedExpr} (hst : L.Between st)
    (h : ∀ e ∈ es, ∀ st', L.Between st' →
      L.Holds env' st' (Logged.lower env e) (Lowering.lower env' e) e.inputUses L.Known) :
    L.Holds env' st (Logged.lowerAll env es) (Lowering.lowerAll env' es)
      (StampedExpr.inputUsesAll es) fun st' rs => ∀ r ∈ rs, L.Known st' r := by
  induction es generalizing st with
  | nil => exact holds_pure hst (List.forall_mem_nil _)
  | cons e es ih =>
    obtain ⟨he, hes⟩ := List.forall_mem_cons.1 h
    rw [Logged.lowerAll, Lowering.lowerAll, StampedExpr.inputUsesAll]
    refine (he st hst).bind fun r st₁ _ h₁ hr => (ih (L.between h₁) hes).last
      fun rs st₂ _ h₂ hrs => holds_pure (L.between h₂) ?_
    exact List.forall_mem_cons.2 ⟨L.known h₂ hr, hrs⟩

theorem holds_lower (hst : L.Between st) (e : StampedExpr) :
    L.Holds env' st (Logged.lower env e) (Lowering.lower env' e) e.inputUses L.Known := by
  induction e using Expr.induction generalizing st with
  | constant m v | ref m v =>
    exact holds_value hst ⟨rfl, rfl, rfl⟩ (List.forall_mem_nil _) (List.forall_mem_nil _)
  | input m path =>
    obtain ⟨hasked, hdoes⟩ := L.input m path hst
    exact holds_asking hasked (.refl _) hdoes
  | call m func args ih =>
    rw [Logged.lower, Lowering.lower, StampedExpr.inputUses]
    exact (holds_lowerAll hst fun e he _ => ih e he).last fun rs _ _ h hrs =>
      holds_value (L.between h) ⟨rfl, rfl, rfl⟩ hrs (List.forall_mem_nil _)
  | tuple m elems ih =>
    rw [Logged.lower, Lowering.lower, StampedExpr.inputUses]
    exact (holds_lowerAll hst fun e he _ => ih e he).last fun rs _ _ h hrs =>
      holds_value (L.between h) ⟨rfl, rfl, rfl⟩ hrs (List.forall_mem_nil _)
  | select m c t f hc ht hf =>
    rw [Logged.lower, Lowering.lower, StampedExpr.inputUses]
    refine (holds_align henv hst _ _).bind fun _ _ _ h₀ _ => (hc (L.between h₀)).bind
      fun rc _ _ h₁ hrc => (ht (L.between h₁)).bind fun rt _ _ h₂ hrt =>
        (hf (L.between h₂)).last fun rf _ _ h₃ hrf =>
          holds_value (L.between h₃) ⟨rfl, rfl, rfl⟩ ?_ (List.forall_mem_nil _)
    refine List.forall_mem_cons.2 ⟨L.known h₃ (L.known h₂ hrc), ?_⟩
    exact List.forall_mem_cons.2 ⟨L.known h₃ hrt, List.forall_mem_singleton.2 hrf⟩
  | reduce m op reduced arg ih =>
    rw [Logged.lower, Lowering.lower, StampedExpr.inputUses]
    exact Holds.reduction henv (fun _ => ih) hst m op reduced arg

/-- The loops around a body, and its value inside of them. -/
theorem holds_bodyValue (hst : L.Between st) (body : StampedExpr) :
    L.Holds env' st (Logged.align env body.axes body >>= fun _ => Logged.lower env body)
      (Lowering.align env' body.axes body >>= fun _ => Lowering.lower env' body) body.inputUses
      L.Known :=
  (holds_align henv hst _ _).bind fun _ _ _ h _ => holds_lower henv (L.between h) body

theorem holds_lowerBody (hst : L.Between st) (body : StampedExpr)
    (hend : ∀ st' v, L.Between st' → L.Known st' v →
      L.Does st' (st'.finish v body.span) [] []) :
    L.Holds env' st (Logged.lowerBody env body) (Lowering.lowerBody env' body) body.inputUses
      fun _ _ => True := by
  refine (holds_align henv hst _ _).bind fun _ _ _ h₁ _ =>
    (holds_lower henv (L.between h₁) body).last fun v st₂ _ h₂ hv => ?_
  refine fun log => ⟨[], (List.append_nil log).symm, List.forall_mem_nil _, .refl _,
    fun _ _ h => ?_⟩
  cases h
  exact ⟨hend st₂ v (L.between h₂) hv, trivial⟩

end Within

/-- The log tells the inputs that are read, in order. -/
def recording (env : Env) : Law env where
  Between _ := True
  Asked _ := True
  Does _ _ new uses := new.filterMap Lookup.use? = uses
  Known _ _ := True
  Declared _ _ := True
  refl _ := rfl
  trans h h' := by rw [List.filterMap_append, h, h']
  between _ := trivial
  known _ _ := trivial
  declared _ _ := trivial
  value _ _ _ _ _ := ⟨rfl, trivial⟩
  emit _ _ _ _ _ := rfl
  declareAccumulator _ _ _ _ _ := ⟨rfl, trivial⟩
  closeLoops _ _ _ := rfl
  setFloor _ _ := rfl
  input _ _ _ := ⟨trivial, fun _ _ _ => ⟨rfl, trivial⟩⟩
  openLoop _ _ _ _ := ⟨trivial, fun _ _ => rfl⟩

/-- A logged step that succeeds is a step, and its log tells the inputs that it reads. -/
theorem Holds.eq_ok {x : Logged α} {y : Lower α} (h : (recording env).Holds env st x y uses post)
    {log log' : List Lookup} {a : α} {st' : Emission} (hx : x st log = (.ok (a, st'), log')) :
    y st = .ok (a, st') ∧ ∃ new, log' = log ++ new ∧ new.filterMap Lookup.use? = uses := by
  obtain ⟨new, hlog, -, hagree, hok⟩ := h log
  rw [hx] at hlog hagree hok
  exact ⟨hagree.ok _ rfl, new, hlog, (hok a st' rfl).1⟩

end Law

/-- Logging changes nothing in the code of an expression, nor in its failure. -/
theorem Logged.lower_fst (env : Env) (e : StampedExpr) (st : Emission) (log : List Lookup) :
    (Logged.lower env e st log).1 = Lowering.lower env e st := by
  obtain ⟨-, -, -, hagree, -⟩ := Law.holds_lower (L := .recording env) (.refl env) trivial e log
  exact hagree.same rfl

theorem Logged.lowerBody_fst (env : Env) (body : StampedExpr) (st : Emission) (log : List Lookup) :
    (Logged.lowerBody env body st log).1 = Lowering.lowerBody env body st := by
  obtain ⟨-, -, -, hagree, -⟩ := Law.holds_lowerBody (L := .recording env) (.refl env) trivial body
    (fun _ _ _ _ => rfl) log
  exact hagree.same rfl

/-- Where a body is lowered, more carriers and functions change nothing. -/
theorem lowerBody_within {env env' : Env} (h : env.Within env') {body : StampedExpr}
    {st : Emission} {r : Unit × Emission} (hr : lowerBody env body st = .ok r) :
    lowerBody env' body st = .ok r := by
  obtain ⟨-, -, -, hagree, -⟩ := Law.holds_lowerBody (L := .recording env) h trivial body
    (fun _ _ _ _ => rfl) []
  rw [Logged.lowerBody_fst] at hagree
  exact hagree.ok r hr

end Lowering
end LoopNest
