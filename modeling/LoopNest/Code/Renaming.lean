import LoopNest.Code.Basic

/-! Renamings of the registers, loops and accumulators of a piece of code. A renaming grows by new
names, in the order in which the code mentions the old ones, and keeps those that it has. -/
namespace LoopNest

/-- The first numbers that some code leaves free. -/
def CodeCounter.past (instrs : List Instr) : CodeCounter where
  reg := (instrs.flatMap Instr.defs).foldl (fun n r => max n (r.index + 1)) 0
  loop := instrs.foldl (fun n i =>
    match i.op with
    | .loopStart _ _ _ _ id => max n (id.index + 1)
    | _ => n) 0
  acc := (instrs.filterMap fun i => i.op.accumulator?).foldl (fun n a => max n (a.index + 1)) 0

structure Renaming where
  /-- The next new names. -/
  counter : CodeCounter
  regs : List (Reg × Reg)
  loops : List (LoopId × LoopId)
  accs : List (AccId × AccId)

namespace Renaming

def empty (c : CodeCounter) : Renaming := ⟨c, [], [], []⟩

/-- Names that are not covered stay. -/
def reg (ρ : Renaming) (r : Reg) : Reg := (ρ.regs.lookup r).getD r

def loop (ρ : Renaming) (id : LoopId) : LoopId := (ρ.loops.lookup id).getD id

def acc (ρ : Renaming) (a : AccId) : AccId := (ρ.accs.lookup a).getD a

/-- Sets the name of a register. -/
def setReg (ρ : Renaming) (old new : Reg) : Renaming := { ρ with regs := (old, new) :: ρ.regs }

def coverReg (ρ : Renaming) (r : Reg) : Renaming :=
  match ρ.regs.lookup r with
  | some _ => ρ
  | none =>
    let (new, c) := ρ.counter.nextReg
    { ρ with counter := c, regs := (r, new) :: ρ.regs }

def coverLoop (ρ : Renaming) (id : LoopId) : Renaming :=
  match ρ.loops.lookup id with
  | some _ => ρ
  | none =>
    let (new, c) := ρ.counter.nextLoop
    { ρ with counter := c, loops := (id, new) :: ρ.loops }

def coverAcc (ρ : Renaming) (a : AccId) : Renaming :=
  match ρ.accs.lookup a with
  | some _ => ρ
  | none =>
    let (new, c) := ρ.counter.nextAcc
    { ρ with counter := c, accs := (a, new) :: ρ.accs }

def coverRegs (ρ : Renaming) (rs : List Reg) : Renaming := rs.foldl coverReg ρ

/-- Covers what an operation names: the registers that it reads, those of a loop, and the loop or
the accumulator. -/
def coverOp (ρ : Renaming) (op : Op) : Renaming :=
  let ρ := (ρ.coverRegs op.inputs).coverRegs op.loopRegisters
  match op with
  | .loopStart _ _ _ _ id | .loopEnd id => ρ.coverLoop id
  | .declareAccumulator acc _ _ _ | .accumulate acc _ _ | .loadAccumulator acc _ => ρ.coverAcc acc
  | _ => ρ

/-- Covers all names of an instruction, the result last. -/
def coverInstr (ρ : Renaming) (i : Instr) : Renaming :=
  (ρ.coverOp i.op).coverRegs i.result.toList

def op (ρ : Renaming) (o : Op) : Op :=
  match o.mapInputs ρ.reg with
  | .loopStart axis collection element index id =>
    .loopStart axis collection (ρ.reg element) (ρ.reg index) (ρ.loop id)
  | .loopEnd id => .loopEnd (ρ.loop id)
  | .declareAccumulator acc op identity dtype => .declareAccumulator (ρ.acc acc) op identity dtype
  | .accumulate acc op value => .accumulate (ρ.acc acc) op value
  | .loadAccumulator acc dtype => .loadAccumulator (ρ.acc acc) dtype
  | o => o

@[simp] theorem inputs_op (ρ : Renaming) (o : Op) : (ρ.op o).inputs = o.inputs.map ρ.reg := by
  cases o <;> rfl

@[simp] theorem loopRegisters_op (ρ : Renaming) (o : Op) :
    (ρ.op o).loopRegisters = o.loopRegisters.map ρ.reg := by
  cases o <;> rfl

@[simp] theorem opcode_op (ρ : Renaming) (o : Op) : (ρ.op o).opcode = o.opcode := by
  cases o <;> rfl

def instr (ρ : Renaming) (i : Instr) : Instr := ⟨i.result.map ρ.reg, ρ.op i.op, i.location⟩

@[simp] theorem defs_instr (ρ : Renaming) (i : Instr) :
    (ρ.instr i).defs = i.defs.map ρ.reg := by
  rcases i with ⟨_ | r, o, s⟩ <;> simp [instr, Instr.defs]

end Renaming
end LoopNest
