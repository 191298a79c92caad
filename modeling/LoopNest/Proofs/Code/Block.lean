import LoopNest.Code.Basic
import Mathlib.Data.List.Basic

/-! Loop code as a tree. A flat list of instructions whose loops nest has one tree, which is found
by reading the list from its end, and the tree has one list. -/
namespace LoopNest

namespace Op

/-- Whether an operation starts or ends a loop. -/
def isDelimiter : Op → Bool
  | .loopStart .. | .loopEnd _ => true
  | _ => false

/-- Whether an operation introduces no loop and no accumulator. -/
def isPlain : Op → Bool
  | .loopStart .. | .declareAccumulator .. => false
  | _ => true

end Op

namespace Instr

/-- The accumulator that an instruction declares. -/
def declares (i : Instr) : List AccId :=
  match i.op with
  | .declareAccumulator acc _ _ _ => [acc]
  | _ => []

/-- The loop that an instruction starts. -/
def starts (i : Instr) : List LoopId :=
  match i.op with
  | .loopStart _ _ _ _ id => [id]
  | _ => []

end Instr

/-- Whether an instruction starts a loop that another one ends. -/
def Instr.Pairs (start stop : Instr) : Prop := ∃ id, start.starts = [id] ∧ stop.op = .loopEnd id

/-- Code with its loops: each loop stands between its start and its end, with what follows it. -/
inductive Block where
  | done
  | step (i : Instr) (rest : Block)
  | loop (start : Instr) (body : Block) (stop : Instr) (rest : Block)

namespace Block

/-- The instructions in order. -/
def instrs : Block → List Instr
  | .done => []
  | .step i rest => i :: rest.instrs
  | .loop start body stop rest => start :: (body.instrs ++ stop :: rest.instrs)

/-- One block after the other. -/
def append : Block → Block → Block
  | .done, b => b
  | .step i rest, b => .step i (rest.append b)
  | .loop start body stop rest, b => .loop start body stop (rest.append b)

instance : Append Block := ⟨append⟩

@[simp] theorem done_append (b : Block) : .done ++ b = b := rfl

@[simp] theorem step_append (i : Instr) (a b : Block) : .step i a ++ b = .step i (a ++ b) := rfl

@[simp] theorem loop_append (start stop : Instr) (body a b : Block) :
    .loop start body stop a ++ b = .loop start body stop (a ++ b) := rfl

@[simp] theorem instrs_done : done.instrs = [] := rfl

@[simp] theorem instrs_step (i : Instr) (b : Block) : (step i b).instrs = i :: b.instrs := rfl

@[simp] theorem instrs_loop (start stop : Instr) (body b : Block) :
    (loop start body stop b).instrs = start :: (body.instrs ++ stop :: b.instrs) := rfl

@[simp] theorem instrs_append (a b : Block) : (a ++ b).instrs = a.instrs ++ b.instrs := by
  induction a with
  | done => rfl
  | step i rest ih => simp [ih]
  | loop start body stop rest _ ih => simp [ih]

theorem append_assoc (a b c : Block) : a ++ b ++ c = a ++ (b ++ c) := by
  induction a with
  | done => rfl
  | step i rest ih => simp [ih]
  | loop start body stop rest _ ih => simp [ih]

@[simp] theorem append_done (a : Block) : a ++ .done = a := by
  induction a with
  | done => rfl
  | step i rest ih => simp [ih]
  | loop start body stop rest _ ih => simp [ih]

theorem append_step (a : Block) (i : Instr) (b : Block) :
    a ++ .step i b = a ++ .step i .done ++ b := by
  rw [append_assoc]
  rfl

/-- Instructions without loops before a block. -/
def steps (is : List Instr) (b : Block) : Block := is.foldr .step b

@[simp] theorem steps_nil (b : Block) : steps [] b = b := rfl

@[simp] theorem steps_cons (i : Instr) (is : List Instr) (b : Block) :
    steps (i :: is) b = .step i (steps is b) := rfl

@[simp] theorem instrs_steps (is : List Instr) (b : Block) :
    (steps is b).instrs = is ++ b.instrs := by
  induction is with
  | nil => rfl
  | cons i is ih => simp [ih]

@[simp] theorem steps_append (is : List Instr) (a b : Block) :
    steps is a ++ b = steps is (a ++ b) := by
  induction is with
  | nil => rfl
  | cons i is ih => simp [ih]

/-- The delimiters of loops stand in pairs where the tree says, and nowhere else. -/
def Regular : Block → Prop
  | .done => True
  | .step i rest => i.op.isDelimiter = false ∧ rest.Regular
  | .loop start body stop rest => start.Pairs stop ∧ body.Regular ∧ rest.Regular

theorem Regular.append {a b : Block} (ha : a.Regular) (hb : b.Regular) : (a ++ b).Regular := by
  induction a with
  | done => exact hb
  | step i rest ih => exact ⟨ha.1, ih ha.2⟩
  | loop start body stop rest _ ih => exact ⟨ha.1, ha.2.1, ih ha.2.2⟩

theorem Regular.steps {is : List Instr} {b : Block} (hi : ∀ i ∈ is, i.op.isDelimiter = false)
    (hb : b.Regular) : (Block.steps is b).Regular := by
  induction is with
  | nil => exact hb
  | cons i is ih =>
    exact ⟨hi i List.mem_cons_self, ih fun j hj => hi j (List.mem_cons_of_mem _ hj)⟩

/-- A reading of code from its end: the block that the next instruction stands before, and the ends
of the loops around, each with the block behind it. -/
abbrev Reading := Block × List (Instr × Block)

/-- Reads one more instruction. The start of a loop needs an end. -/
def read (i : Instr) (r : Reading) : Option Reading :=
  match i.op with
  | .loopEnd _ => some (.done, (i, r.1) :: r.2)
  | .loopStart .. =>
    match r.2 with
    | [] => none
    | (stop, rest) :: around => some (.loop i r.1 stop rest, around)
  | _ => some (.step i r.1, r.2)

theorem read_of_not_delimiter {i : Instr} (h : i.op.isDelimiter = false) (r : Reading) :
    read i r = some (.step i r.1, r.2) := by
  rcases i with ⟨_, op, _⟩
  cases op with
  | loopStart | loopEnd => cases h
  | _ => rfl

theorem read_start {i : Instr} {id : LoopId} (h : i.starts = [id]) (b : Block) (stop : Instr)
    (rest : Block) (around : List (Instr × Block)) :
    read i (b, (stop, rest) :: around) = some (.loop i b stop rest, around) := by
  rcases i with ⟨_, op, _⟩
  cases op with
  | loopStart => rfl
  | _ => cases h

theorem read_stop {i : Instr} {id : LoopId} (h : i.op = .loopEnd id) (r : Reading) :
    read i r = some (.done, (i, r.1) :: r.2) := by
  rw [read, h]

/-- The tree of a list of instructions, if its loops nest. -/
def ofInstrs? (is : List Instr) : Option Block :=
  match is.foldrM read (.done, []) with
  | some (b, []) => some b
  | _ => none

/-- A block is read in front of whatever was read before. -/
theorem foldrM_read_instrs {b : Block} (h : b.Regular) (rest : Block)
    (around : List (Instr × Block)) :
    b.instrs.foldrM read (rest, around) = some (b ++ rest, around) := by
  induction b generalizing rest around with
  | done => rfl
  | step i b ih =>
    rw [instrs_step, List.foldrM_cons, ih h.2]
    exact read_of_not_delimiter h.1 _
  | loop start body stop b ihb ih =>
    obtain ⟨⟨id, hstart, hend⟩, hbody, hrest⟩ := h
    have hstop : (stop :: b.instrs).foldrM read (rest, around) =
        some (.done, (stop, b ++ rest) :: around) := by
      rw [List.foldrM_cons, ih hrest]
      exact read_stop hend _
    rw [instrs_loop, List.foldrM_cons, List.foldrM_append, hstop]
    change (body.instrs.foldrM read (.done, (stop, b ++ rest) :: around)).bind (read start) = _
    rw [ihb hbody, append_done]
    exact read_start hstart _ _ _ _

theorem ofInstrs?_instrs {b : Block} (h : b.Regular) : ofInstrs? b.instrs = some b := by
  rw [ofInstrs?, foldrM_read_instrs h, append_done]

/-- The block with each instruction changed in place. -/
def map (f : Instr → Instr) : Block → Block
  | .done => .done
  | .step i rest => .step (f i) (rest.map f)
  | .loop start body stop rest => .loop (f start) (body.map f) (f stop) (rest.map f)

@[simp] theorem instrs_map (f : Instr → Instr) (b : Block) :
    (b.map f).instrs = b.instrs.map f := by
  induction b with
  | done => rfl
  | step i rest ih => simp [map, ih]
  | loop start body stop rest ihb ih => simp [map, ihb, ih]

@[simp] theorem map_append (f : Instr → Instr) (a b : Block) :
    (a ++ b).map f = a.map f ++ b.map f := by
  induction a with
  | done => rfl
  | step i rest ih => simp [map, ih]
  | loop start body stop rest _ ih => simp [map, ih]

@[simp] theorem map_steps (f : Instr → Instr) (is : List Instr) (b : Block) :
    (steps is b).map f = steps (is.map f) (b.map f) := by
  induction is with
  | nil => rfl
  | cons i is ih => simp [map, ih]

end Block
end LoopNest
