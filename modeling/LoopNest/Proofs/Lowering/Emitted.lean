import LoopNest.Inlining
import LoopNest.Lowering
import LoopNest.Proofs.Code.Block

/-! The shape of emitted code, as a relation. It says which code may stand for an expression inside
given open loops, whatever the names of its registers: paths are walked from the innermost loop that
leads to them, a reduction has loops of its own, and the value of another declaration is either
loaded or, under loops over exactly its axes, computed in place. -/
namespace LoopNest

/-- An open loop as seen from the code inside: what it runs over, and its element. -/
structure Place (ε : Type) where
  logical : Axes
  carrier : FieldPath
  element : ε

def Frame.place (f : Frame) : Place Reg := ⟨f.logical, f.carrier, f.element⟩

namespace Place

variable {ε : Type}

/-- The axes of the innermost loop. -/
def logicalOf : List (Place ε) → Axes
  | [] => []
  | p :: _ => p.logical

def elements (places : List (Place ε)) : List ε := places.map element

@[simp] theorem elements_nil : elements ([] : List (Place ε)) = [] := rfl

@[simp] theorem elements_cons (p : Place ε) (places : List (Place ε)) :
    elements (p :: places) = p.element :: elements places := rfl

/-- The innermost loop whose carrier passes a test. -/
def find? (places : List (Place ε)) (test : FieldPath → Bool) : Option (Place ε) :=
  places.find? fun p => test p.carrier

theorem find?_cons_of_pos {p : Place ε} {test : FieldPath → Bool} (h : test p.carrier = true)
    (places : List (Place ε)) : find? (p :: places) test = some p :=
  List.find?_cons_of_pos h

theorem find?_cons_of_neg {p : Place ε} {test : FieldPath → Bool} (h : ¬test p.carrier = true)
    (places : List (Place ε)) : find? (p :: places) test = find? places test :=
  List.find?_cons_of_neg h

theorem of_find?_eq_some {places : List (Place ε)} {test : FieldPath → Bool} {p : Place ε}
    (h : find? places test = some p) : p ∈ places ∧ test p.carrier = true :=
  ⟨List.mem_of_find?_eq_some h, List.find?_some (p := fun (p : Place ε) => test p.carrier) h⟩

end Place

/-- Whether a carrier lies properly on the way to another one. -/
def FieldPath.inside (carrier other : FieldPath) : Bool :=
  decide (other.length < carrier.length) && carrier.startsWith other

/-- The declaration whose value is loaded. -/
def Op.loaded? : Op → Option String
  | .loadDeclaration name _ _ => some name
  | _ => none

/-- The instruction yields nothing, and what it loads is known and goes to a register. -/
def Instr.Emitted (known : String → Option StampedExpr) (i : Instr) : Prop :=
  i.isYield = false ∧
    ∀ name, i.op.loaded? = some name → (known name).isSome ∧ i.result.isSome

/-- Loads fields one after the other, from a register on. The last one may have a type. -/
inductive Walks (dtype : Option DType) : Reg → FieldPath → List Instr → Reg → Prop
  | stay {base : Reg} : Walks dtype base [] [] base
  | load {base r last : Reg} {key : String} {keys : FieldPath} {is : List Instr} {span : Span} :
    Walks dtype r keys is last →
    Walks dtype base (key :: keys)
      (⟨some r, .loadField base key (if keys = [] then dtype else none), span⟩ :: is) last

/-- Loads what a path leads to, from the innermost loop that passes a test, or else from the root.
-/
inductive Loads (dtype : Option DType) (places : List (Place Reg)) (test : FieldPath → Bool) :
    FieldPath → List Instr → Reg → Prop
  | place {p : Place Reg} {path : FieldPath} {is : List Instr} {r : Reg} :
    Place.find? places test = some p → Walks dtype p.element (path.drop p.carrier.length) is r →
    Loads dtype places test path is r
  | root {key : String} {keys : FieldPath} {is : List Instr} {base r : Reg} {span : Span} :
    Place.find? places test = none → Walks dtype base keys is r →
    Loads dtype places test (key :: keys) (⟨some base, .loadInput key, span⟩ :: is) r

/-- A loop with the loads of its collection. -/
structure Opening where
  loads : List Instr
  axis : Axis
  collection : Reg
  element : Reg
  index : Reg
  id : LoopId
  startSpan : Span
  stopSpan : Span

namespace Opening

def start (o : Opening) : Instr :=
  ⟨none, .loopStart o.axis o.collection o.element o.index o.id, o.startSpan⟩

def stop (o : Opening) : Instr := ⟨none, .loopEnd o.id, o.stopSpan⟩

/-- A block inside of loops, the first one outermost. -/
def wrap : List Opening → Block → Block
  | [], inner => inner
  | o :: os, inner => .steps o.loads (.loop o.start (wrap os inner) o.stop .done)

/-- The instructions up to the innermost loop. -/
def heads (os : List Opening) : List Instr := os.flatMap fun o => o.loads ++ [o.start]

/-- The ends of the loops, innermost first. -/
def tails (os : List Opening) : List Instr := (os.map stop).reverse

@[simp] theorem heads_cons (o : Opening) (os : List Opening) :
    heads (o :: os) = o.loads ++ o.start :: heads os := by
  simp [heads]

@[simp] theorem tails_cons (o : Opening) (os : List Opening) :
    tails (o :: os) = tails os ++ [o.stop] := by
  simp [tails]

theorem instrs_wrap (os : List Opening) (inner : Block) :
    (wrap os inner).instrs = heads os ++ (inner.instrs ++ tails os) := by
  induction os with
  | nil => simp [wrap, heads, tails]
  | cons o os ih => simp [wrap, ih]

end Opening

theorem Walks.isLoad {dtype : Option DType} {base r : Reg} {keys : FieldPath} {is : List Instr}
    (h : Walks dtype base keys is r) : ∀ i ∈ is, Inlining.isLoad i.op = true := by
  induction h with
  | stay => exact fun i hi => nomatch hi
  | load _ ih => exact List.forall_mem_cons.2 ⟨rfl, ih⟩

theorem Loads.isLoad {dtype : Option DType} {places : List (Place Reg)} {test : FieldPath → Bool}
    {path : FieldPath} {is : List Instr} {r : Reg} (h : Loads dtype places test path is r) :
    ∀ i ∈ is, Inlining.isLoad i.op = true := by
  cases h with
  | place _ hw => exact hw.isLoad
  | root _ hw => exact List.forall_mem_cons.2 ⟨rfl, hw.isLoad⟩

theorem Instr.of_isLoad {i : Instr} (h : Inlining.isLoad i.op = true) :
    i.op.isDelimiter = false ∧ i.isYield = false := by
  rcases i with ⟨_, op, _⟩
  cases op with
  | loadInput | loadField => exact ⟨rfl, rfl⟩
  | _ => cases h

theorem Instr.emitted_of_isLoad {i : Instr} (h : Inlining.isLoad i.op = true)
    (known : String → Option StampedExpr) : i.Emitted known := by
  refine ⟨(of_isLoad h).2, fun name hname => ?_⟩
  rcases i with ⟨_, op, _⟩
  cases op with
  | loadDeclaration => cases h
  | _ => cases hname

theorem Loads.not_delimiter {dtype : Option DType} {places : List (Place Reg)}
    {test : FieldPath → Bool} {path : FieldPath} {is : List Instr} {r : Reg}
    (h : Loads dtype places test path is r) :
    ∀ i ∈ is, i.op.isDelimiter = false :=
  fun i hi => (Instr.of_isLoad (h.isLoad i hi)).1

/-- Opens a loop for each of some axes, after others. -/
inductive Opens (carriers : CarrierMap) :
    List (Place Reg) → Axes → Axes → List Opening → List (Place Reg) → Prop
  | nil {places : List (Place Reg)} {axes : Axes} : Opens carriers places axes [] [] places
  | cons {places inner : List (Place Reg)} {axes rest : Axes} {a : Axis} {carrier : FieldPath}
    {o : Opening} {os : List Opening} :
    carriers.find? (axes ++ [a]) = some carrier → o.axis = a →
    Loads none places carrier.inside carrier o.loads o.collection →
    Opens carriers (⟨axes ++ [a], carrier, o.element⟩ :: places) (axes ++ [a]) rest os inner →
    Opens carriers places axes (a :: rest) (o :: os) inner

/-- The innermost loop is over all of the axes. -/
theorem Opens.logicalOf_eq {carriers : CarrierMap} {places inner : List (Place Reg)}
    {axes rest : Axes} {os : List Opening} (h : Opens carriers places axes rest os inner)
    (hne : rest ≠ []) :
    Place.logicalOf inner = axes ++ rest := by
  induction h with
  | nil => exact absurd rfl hne
  | @cons places inner axes rest a carrier o os hc ha hl ho ih =>
    cases rest with
    | nil =>
      cases ho
      rfl
    | cons a' rest => rw [ih (List.cons_ne_nil _ _), List.append_assoc, List.singleton_append]

/-- There is one loop for each axis, and the inner loops come first. -/
theorem Opens.elements_eq {carriers : CarrierMap} {places inner : List (Place Reg)}
    {axes rest : Axes} {os : List Opening} (h : Opens carriers places axes rest os inner) :
    os.length = rest.length ∧
      Place.elements inner = (os.map Opening.element).reverse ++ Place.elements places := by
  induction h with
  | nil => exact ⟨rfl, rfl⟩
  | cons _ _ _ _ ih =>
    refine ⟨congrArg (· + 1) ih.1, ?_⟩
    rw [ih.2, List.map_cons, List.reverse_cons, List.append_assoc]
    rfl

theorem Opens.regular {carriers : CarrierMap} {places inner : List (Place Reg)} {axes rest : Axes}
    {os : List Opening} (h : Opens carriers places axes rest os inner) {b : Block}
    (hb : b.Regular) :
    (Opening.wrap os b).Regular := by
  induction h with
  | nil => exact hb
  | cons _ _ hl _ ih => exact Block.Regular.steps hl.not_delimiter ⟨⟨_, rfl, rfl⟩, ih, trivial⟩

theorem Opens.emitted {carriers : CarrierMap} {places inner : List (Place Reg)} {axes rest : Axes}
    {os : List Opening} (h : Opens carriers places axes rest os inner)
    (known : String → Option StampedExpr) : ∀ i ∈ Opening.heads os, i.Emitted known := by
  induction h with
  | nil => exact fun i hi => nomatch hi
  | cons _ _ hl _ ih =>
    rw [Opening.heads_cons]
    refine List.forall_mem_append.2 ⟨fun i hi => Instr.emitted_of_isLoad (hl.isLoad i hi) known, ?_⟩
    exact List.forall_mem_cons.2 ⟨⟨rfl, fun _ hname => nomatch hname⟩, ih⟩

theorem Opens.not_yield {carriers : CarrierMap} {places inner : List (Place Reg)} {axes rest : Axes}
    {os : List Opening} (h : Opens carriers places axes rest os inner) :
    ∀ i ∈ Opening.heads os, i.isYield = false :=
  fun i hi => (h.emitted (fun _ => none) i hi).1

theorem Opening.tails_emitted (os : List Opening) (known : String → Option StampedExpr) :
    ∀ i ∈ tails os, i.Emitted known := by
  intro i hi
  obtain ⟨o, -, rfl⟩ := List.mem_map.1 (List.mem_reverse.1 hi)
  exact ⟨rfl, fun _ hname => nomatch hname⟩

/-- A place where an input is read: the register of its value, and the loops that are open. -/
structure Reference where
  use : InputUse
  reg : Reg
  places : List (Place Reg)

/-- The code for expressions, one after the other, inside of open loops; with the registers of their
values, and the inputs that are read. Other declarations are known by their bodies. In inlined code
they may be computed in place. -/
inductive Emits (env : Lowering.Env) (inlined : Bool) (known : String → Option StampedExpr) :
    List (Place Reg) → List StampedExpr → Block → List Reg → List Reference → Prop
  | nil {places : List (Place Reg)} : Emits env inlined known places [] .done [] []
  | constant {places : List (Place Reg)} {m : Mark} {v : Literal} {es : List StampedExpr}
    {b : Block} {r : Reg} {rs : List Reg} {refs : List Reference} {span : Span} :
    Emits env inlined known places es b rs refs →
    Emits env inlined known places (.constant m v :: es)
      (.step ⟨some r, .constant v m.stamp.dtype, span⟩ b) (r :: rs) refs
  | input {places : List (Place Reg)} {m : Mark} {path : FieldPath} {es : List StampedExpr}
    {b : Block} {is : List Instr} {r : Reg} {rs : List Reg} {refs : List Reference} :
    Loads (some m.stamp.dtype) places path.startsWith path is r →
    Emits env inlined known places es b rs refs →
    Emits env inlined known places (.input m path :: es) (.steps is b) (r :: rs)
      (⟨⟨path, m.stamp.axes, m.span⟩, r, places⟩ :: refs)
  | load {places : List (Place Reg)} {m : Mark} {name : String} {body : StampedExpr}
    {es : List StampedExpr} {b : Block} {r : Reg} {rs : List Reg} {refs : List Reference}
    {span : Span} :
    known name = some body → body.axes = m.stamp.axes →
    m.stamp.axes <+: Place.logicalOf places → Emits env inlined known places es b rs refs →
    Emits env inlined known places (.ref m name :: es)
      (.step ⟨some r, .loadDeclaration name m.stamp.axes m.stamp.dtype, span⟩ b) (r :: rs) refs
  | compute {places : List (Place Reg)} {m : Mark} {name : String} {body : StampedExpr}
    {es : List StampedExpr} {b₁ b₂ : Block} {r : Reg} {rs : List Reg}
    {refs₁ refs₂ : List Reference} :
    inlined = true → known name = some body → body.axes = m.stamp.axes →
    m.stamp.axes <+: Place.logicalOf places → places.length = m.stamp.axes.length →
    Emits env inlined known places [body] b₁ [r] refs₁ →
    Emits env inlined known places es b₂ rs refs₂ →
    Emits env inlined known places (.ref m name :: es) (b₁ ++ b₂) (r :: rs) (refs₁ ++ refs₂)
  | call {places : List (Place Reg)} {m : Mark} {func : String} {args es : List StampedExpr}
    {b₁ b₂ : Block} {r : Reg} {rs₁ rs₂ : List Reg} {refs₁ refs₂ : List Reference} {span : Span} :
    Emits env inlined known places args b₁ rs₁ refs₁ →
    Emits env inlined known places es b₂ rs₂ refs₂ →
    Emits env inlined known places (.call m func args :: es)
      (b₁ ++ .step ⟨some r, .kernelCall func rs₁ m.stamp.dtype, span⟩ b₂) (r :: rs₂)
      (refs₁ ++ refs₂)
  | tuple {places : List (Place Reg)} {m : Mark} {elems es : List StampedExpr} {b₁ b₂ : Block}
    {r : Reg} {rs₁ rs₂ : List Reg} {refs₁ refs₂ : List Reference} {span : Span} :
    Emits env inlined known places elems b₁ rs₁ refs₁ →
    Emits env inlined known places es b₂ rs₂ refs₂ →
    Emits env inlined known places (.tuple m elems :: es)
      (b₁ ++ .step ⟨some r, .makeTuple rs₁ m.stamp.dtype, span⟩ b₂) (r :: rs₂) (refs₁ ++ refs₂)
  | select {places : List (Place Reg)} {m : Mark} {c t f : StampedExpr} {es : List StampedExpr}
    {b₁ b₂ : Block} {r rc rt rf : Reg} {rs : List Reg} {refs₁ refs₂ : List Reference}
    {span : Span} :
    Emits env inlined known places [c, t, f] b₁ [rc, rt, rf] refs₁ →
    Emits env inlined known places es b₂ rs refs₂ →
    Emits env inlined known places (.select m c t f :: es)
      (b₁ ++ .step ⟨some r, .select rc rt rf m.stamp.dtype, span⟩ b₂) (r :: rs) (refs₁ ++ refs₂)
  | reduce {places inner : List (Place Reg)} {m : Mark} {op : String} {reduced : Axes}
    {arg : StampedExpr} {es : List StampedExpr} {os : List Opening} {b₁ b₂ : Block} {v r : Reg}
    {acc : AccId} {start : Literal} {rs : List Reg} {refs₁ refs₂ : List Reference}
    {s₁ s₂ s₃ : Span} :
    m.stamp.axes <+: Place.logicalOf places → arg.axes = m.stamp.axes ++ reduced → reduced ≠ [] →
    Lowering.identity env op m.stamp.dtype m.span = .ok start →
    Opens env.carriers places m.stamp.axes reduced os inner →
    Emits env inlined known inner [arg] b₁ [v] refs₁ →
    Emits env inlined known places es b₂ rs refs₂ →
    Emits env inlined known places (.reduce m op reduced arg :: es)
      (.step ⟨none, .declareAccumulator acc op start m.stamp.dtype, s₁⟩
        (Opening.wrap os (b₁ ++ .step ⟨none, .accumulate acc op v, s₂⟩ .done) ++
          .step ⟨some r, .loadAccumulator acc m.stamp.dtype, s₃⟩ b₂))
      (r :: rs) (refs₁ ++ refs₂)

/-- A reduction starts from a value that its operation has for the type. -/
theorem Lowering.identity_eq_ok {env : Env} {op : String} {dtype : DType} {span : Span}
    {v : Literal} (h : identity env op dtype span = .ok v) :
    ∃ f i, env.registry.find? op = some f ∧ f.identity = some i ∧ i.literal? dtype = some v := by
  rw [identity] at h
  split at h
  · cases h
  · rename_i f hf
    split at h
    · rename_i v' hv
      cases h
      obtain ⟨i, hi, hv⟩ := Option.bind_eq_some_iff.1 hv
      exact ⟨f, i, hf, hi, hv⟩
    · cases h

namespace Emits

variable {env : Lowering.Env} {inlined : Bool} {known : String → Option StampedExpr}
  {places : List (Place Reg)}

/-- Code for more expressions follows. -/
theorem append {es es' : List StampedExpr} {b b' : Block} {rs rs' : List Reg}
    {refs refs' : List Reference} (h : Emits env inlined known places es b rs refs)
    (h' : Emits env inlined known places es' b' rs' refs') :
    Emits env inlined known places (es ++ es') (b ++ b') (rs ++ rs') (refs ++ refs') := by
  induction h with
  | nil => exact h'
  | constant _ ih => exact .constant (ih h')
  | input hl _ ih =>
    rw [Block.steps_append]
    exact .input hl (ih h')
  | load hk hx ha _ ih => exact .load hk hx ha (ih h')
  | compute hi hk hx ha hn hbody _ _ ih =>
    rw [Block.append_assoc, List.append_assoc]
    exact .compute hi hk hx ha hn hbody (ih h')
  | call hargs _ _ ih =>
    rw [Block.append_assoc, List.append_assoc]
    exact .call hargs (ih h')
  | tuple hargs _ _ ih =>
    rw [Block.append_assoc, List.append_assoc]
    exact .tuple hargs (ih h')
  | select hargs _ _ ih =>
    rw [Block.append_assoc, List.append_assoc]
    exact .select hargs (ih h')
  | reduce ha hx hr hi ho harg _ _ ih =>
    rw [Block.step_append, Block.append_assoc, List.append_assoc]
    exact .reduce ha hx hr hi ho harg (ih h')

/-- The loops of emitted code nest. -/
theorem regular {es : List StampedExpr} {b : Block} {rs : List Reg} {refs : List Reference}
    (h : Emits env inlined known places es b rs refs) : b.Regular := by
  induction h with
  | nil => trivial
  | constant _ ih => exact ⟨rfl, ih⟩
  | input hl _ ih => exact Block.Regular.steps hl.not_delimiter ih
  | load _ _ _ _ ih => exact ⟨rfl, ih⟩
  | compute _ _ _ _ _ _ _ ih₁ ih₂ => exact ih₁.append ih₂
  | call _ _ ih₁ ih₂ => exact ih₁.append ⟨rfl, ih₂⟩
  | tuple _ _ ih₁ ih₂ => exact ih₁.append ⟨rfl, ih₂⟩
  | select _ _ ih₁ ih₂ => exact ih₁.append ⟨rfl, ih₂⟩
  | reduce _ _ _ _ ho _ _ ih₁ ih₂ =>
    have hbody (i : Instr) (hi : i.op.isDelimiter = false) : (Block.step i .done).Regular :=
      ⟨hi, trivial⟩
    exact ⟨rfl, (ho.regular (ih₁.append (hbody _ rfl))).append ⟨rfl, ih₂⟩⟩

/-- Emitted code yields nothing, and loads what is known. -/
theorem emitted {es : List StampedExpr} {b : Block} {rs : List Reg} {refs : List Reference}
    (h : Emits env inlined known places es b rs refs) : ∀ i ∈ b.instrs, i.Emitted known := by
  have hput {a b : Block} {i : Instr} (hi : i.Emitted known)
      (ha : ∀ j ∈ a.instrs, j.Emitted known) (hb : ∀ j ∈ b.instrs, j.Emitted known) :
      ∀ j ∈ (a ++ .step i b).instrs, j.Emitted known := by
    rw [Block.instrs_append]
    exact List.forall_mem_append.2 ⟨ha, List.forall_mem_cons.2 ⟨hi, hb⟩⟩
  have hdone : ∀ j ∈ Block.done.instrs, j.Emitted known := fun j hj => nomatch hj
  have hplain {i : Instr} (hi : i.isYield = false) (hl : i.op.loaded? = none) :
      i.Emitted known := ⟨hi, fun _ hname => by rw [hl] at hname; cases hname⟩
  induction h with
  | nil => exact hdone
  | constant _ ih => exact hput (hplain rfl rfl) hdone ih
  | input hl _ ih =>
    rw [Block.instrs_steps]
    exact List.forall_mem_append.2
      ⟨fun i hi => Instr.emitted_of_isLoad (hl.isLoad i hi) known, ih⟩
  | load hk _ _ _ ih =>
    refine hput ⟨rfl, fun name hname => ?_⟩ hdone ih
    cases hname
    exact ⟨Option.isSome_of_eq_some hk, rfl⟩
  | compute _ _ _ _ _ _ _ ihbody ih =>
    rw [Block.instrs_append]
    exact List.forall_mem_append.2 ⟨ihbody, ih⟩
  | call _ _ ihargs ih => exact hput (hplain rfl rfl) ihargs ih
  | tuple _ _ ihargs ih => exact hput (hplain rfl rfl) ihargs ih
  | select _ _ ihargs ih => exact hput (hplain rfl rfl) ihargs ih
  | reduce _ _ _ _ ho _ _ iharg ih =>
    refine hput (a := .step _ _) (hplain rfl rfl)
      (List.forall_mem_cons.2 ⟨hplain rfl rfl, ?_⟩) ih
    rw [Opening.instrs_wrap]
    refine List.forall_mem_append.2 ⟨ho.emitted known, List.forall_mem_append.2
      ⟨hput (hplain rfl rfl) iharg hdone, Opening.tails_emitted _ known⟩⟩

theorem not_yield {es : List StampedExpr} {b : Block} {rs : List Reg} {refs : List Reference}
    (h : Emits env inlined known places es b rs refs) : ∀ i ∈ b.instrs, i.isYield = false :=
  fun i hi => (h.emitted i hi).1

end Emits
end LoopNest
