import LoopNest.Proofs.Code.Block
import Mathlib.Logic.Function.Basic

/-! The meaning of loop code on input data: what each declaration yields, at which indices. Kernels,
tuples, conditions and reducers are whatever an interpretation says. -/
namespace LoopNest

namespace Json

/-- A field of a record; `null` where there is none. Of equal keys the last one counts. -/
def field (key : String) : Json → Json
  | .object fields =>
    ((fields.reverse.find? fun f => decide (f.1 = some key)).map Prod.snd).getD .null
  | _ => .null

/-- The elements of an array; other values have none. -/
def items : Json → List Json
  | .array items => items
  | _ => []

/-- The field that keys lead to, one after the other. -/
def fields (v : Json) (keys : FieldPath) : Json := keys.foldl (fun v key => v.field key) v

@[simp] theorem fields_nil (v : Json) : v.fields [] = v := rfl

@[simp] theorem fields_cons (v : Json) (key : String) (keys : FieldPath) :
    v.fields (key :: keys) = (v.field key).fields keys := rfl

end Json

/-- What the code leaves open: pure functions for the operations on values. -/
structure Interpretation where
  kernel : String → List Json → Json
  tuple : List Json → Json
  /-- Whether a condition picks its first branch. -/
  truth : Json → Bool
  /-- Adds a value to what a reducer has so far. -/
  reduce : String → Json → Json → Json

/-- The values that a declaration yields, each with the indices of the open loops, outermost
first. -/
abbrev Yields := List (List Nat × Json)

/-- What the code of a declaration runs in: the input data, and what the declarations before it
yielded. -/
structure World where
  interp : Interpretation
  data : Json
  known : List (String × Yields)

/-- The value that a declaration yielded last at some indices. -/
def World.recorded (w : World) (name : String) (indices : List Nat) : Option Json :=
  (w.known.lookup name).bind fun ys => ys.reverse.lookup indices

/-- The state of a run. The loops are innermost first, each with its axis and its current index. -/
structure Machine where
  regs : Reg → Option Json
  accs : AccId → Option Json
  loops : List (Axis × Nat)
  yields : Yields

namespace Machine

def start : Machine := ⟨fun _ => none, fun _ => none, [], []⟩

/-- The value of a register; `null` where nothing was assigned. -/
def read (s : Machine) (r : Reg) : Json := (s.regs r).getD .null

def put (s : Machine) (result : Option Reg) (v : Json) : Machine :=
  match result with
  | none => s
  | some r => { s with regs := Function.update s.regs r (some v) }

/-- Enters a loop with one of its elements. -/
def enter (s : Machine) (axis : Axis) (element index : Reg) (v : Json) (i : Nat) : Machine :=
  { s with
    regs := Function.update (Function.update s.regs element (some v)) index (some (.nat i))
    loops := (axis, i) :: s.loops }

def leave (s : Machine) : Machine := { s with loops := s.loops.tail }

/-- The indices of the open loops, outermost first. -/
def indices (s : Machine) : List Nat := (s.loops.map Prod.snd).reverse

/-- Runs an instruction that is no delimiter of a loop. It is stuck where a loop, a record or an
accumulator that it asks for is missing. -/
def step (w : World) (s : Machine) (i : Instr) : Option Machine :=
  match i.op with
  | .constant v _ => some (s.put i.result v.toJson)
  | .loadInput key => some (s.put i.result (w.data.field key))
  | .loadField base key _ => some (s.put i.result ((s.read base).field key))
  | .loadDeclaration name axes _ => do
    let indices ← axes.mapM fun a => s.loops.lookup a
    return s.put i.result (← w.recorded name indices)
  | .makeTuple elems _ => some (s.put i.result (w.interp.tuple (elems.map s.read)))
  | .select c t f _ =>
    some (s.put i.result (if w.interp.truth (s.read c) then s.read t else s.read f))
  | .kernelCall func args _ => some (s.put i.result (w.interp.kernel func (args.map s.read)))
  | .declareAccumulator acc _ identity _ =>
    some { s with accs := Function.update s.accs acc (some identity.toJson) }
  | .accumulate acc op value => do
    let total ← s.accs acc
    return { s with
      accs := Function.update s.accs acc (some (w.interp.reduce op total (s.read value))) }
  | .loadAccumulator acc _ => do return s.put i.result (← s.accs acc)
  | .yield value => some { s with yields := s.yields ++ [(s.indices, s.read value)] }
  | .loopStart .. | .loopEnd _ => none

end Machine

namespace Block

/-- Runs a block. A loop runs its body for each element of its collection. -/
def run (w : World) : Block → Machine → Option Machine
  | .done, s => some s
  | .step i rest, s => (s.step w i).bind (rest.run w)
  | .loop start body _ rest, s =>
    match start.op with
    | .loopStart axis collection element index _ =>
      ((s.read collection).items.zipIdx.foldlM
        (fun s x => (body.run w (s.enter axis element index x.1 x.2)).map Machine.leave) s).bind
        (rest.run w)
    | _ => none

@[simp] theorem run_done (w : World) (s : Machine) : done.run w s = some s := rfl

theorem run_step {w : World} {i : Instr} {s s' : Machine} (h : s.step w i = some s') :
    (step i done).run w s = some s' := by
  rw [run, h]
  rfl

theorem run_append (w : World) (a b : Block) (s : Machine) :
    (a ++ b).run w s = (a.run w s).bind (b.run w) := by
  induction a generalizing s with
  | done => rfl
  | step i rest ih =>
    change (s.step w i).bind ((rest ++ b).run w) = ((s.step w i).bind (rest.run w)).bind (b.run w)
    rw [Option.bind_assoc]
    exact congrArg _ (funext ih)
  | loop start body stop rest _ ih =>
    rcases start with ⟨result, op, span⟩
    cases op with
    | loopStart axis collection element index id =>
      simp only [loop_append, run, Option.bind_assoc]
      exact congrArg _ (funext ih)
    | _ => rfl

end Block

/-- What the code of a declaration yields. -/
def LoopCode.yields? (w : World) (c : LoopCode) : Option Yields := do
  let b ← Block.ofInstrs? c.instrs
  return (← b.run w .start).yields

namespace LoopModule

/-- What declarations yield one after the other, after those that are known. -/
def evaluateFrom (interp : Interpretation) (data : Json) (known : List (String × Yields)) :
    List LoopCode → Option (List (String × Yields))
  | [] => some []
  | c :: cs => do
    let ys ← c.yields? ⟨interp, data, known⟩
    return (c.name, ys) :: (← evaluateFrom interp data ((c.name, ys) :: known) cs)

/-- What the declarations of a module yield, in order. -/
def evaluate (m : LoopModule) (interp : Interpretation) (data : Json) :
    Option (List (String × Yields)) :=
  evaluateFrom interp data [] m.decls

/-- Each declaration is evaluated once, in order. -/
theorem names_evaluateFrom {interp : Interpretation} {data : Json}
    {known ys : List (String × Yields)}
    {cs : List LoopCode} (h : evaluateFrom interp data known cs = some ys) :
    ys.map Prod.fst = cs.map LoopCode.name := by
  induction cs generalizing known ys with
  | nil =>
    cases h
    rfl
  | cons c cs ih =>
    obtain ⟨first, -, h⟩ := Option.bind_eq_some_iff.1 h
    obtain ⟨rest, hrest, h⟩ := Option.bind_eq_some_iff.1 h
    cases h
    rw [List.map_cons, List.map_cons, ih hrest]

end LoopModule

/-- A fold that can fail follows one that cannot, if each of its steps does. -/
theorem exists_foldlM_of_step {α β γ : Type} {R : α → β → Prop} {f : α → γ → Option α}
    {g : β → γ → β} (l : List γ)
    (step : ∀ x ∈ l, ∀ a b, R a b → ∃ a', f a x = some a' ∧ R a' (g b x)) {a : α} {b : β}
    (h : R a b) : ∃ a', l.foldlM f a = some a' ∧ R a' (l.foldl g b) := by
  induction l generalizing a b with
  | nil => exact ⟨a, rfl, h⟩
  | cons x l ih =>
    obtain ⟨a₁, hf, hr⟩ := step x List.mem_cons_self a b h
    obtain ⟨a₂, hl, hr⟩ := ih (fun y hy => step y (List.mem_cons_of_mem _ hy)) hr
    refine ⟨a₂, ?_, hr⟩
    rw [List.foldlM_cons, hf]
    exact hl

end LoopNest
