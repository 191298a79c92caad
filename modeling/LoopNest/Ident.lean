/-! Identifiers of nodes, values, registers, loops and accumulators, and the counters that number
them. Each kind is a type of its own, so that no two can be confused. -/
namespace LoopNest

/-- An expression node of a declaration graph. -/
structure NodeId where
  index : Nat
  deriving DecidableEq, Inhabited

/-- A stamped value of a module. -/
structure ValueId where
  index : Nat
  deriving DecidableEq, Inhabited

/-- A register of a lowered declaration. -/
structure Reg where
  index : Nat
  deriving DecidableEq, Inhabited

/-- A loop of a lowered declaration; it pairs the start of the loop with its end. -/
structure LoopId where
  index : Nat
  deriving DecidableEq, Inhabited

/-- An accumulator of a lowered declaration. -/
structure AccId where
  index : Nat
  deriving DecidableEq, Inhabited

def NodeId.render (i : NodeId) : String := "n" ++ toString i.index
def ValueId.render (i : ValueId) : String := "v" ++ toString i.index
def Reg.render (i : Reg) : String := "%" ++ toString i.index
def LoopId.render (i : LoopId) : String := "L" ++ toString i.index
def AccId.render (i : AccId) : String := "acc" ++ toString i.index

/-- The next free numbers of a module: nodes, values, and places in the evaluation order. -/
structure ModuleCounter where
  node : Nat
  value : Nat
  topo : Nat
  deriving DecidableEq

namespace ModuleCounter

def zero : ModuleCounter := ⟨0, 0, 0⟩

def nextNode (c : ModuleCounter) : NodeId × ModuleCounter :=
  (⟨c.node⟩, { c with node := c.node + 1 })

def nextValue (c : ModuleCounter) : ValueId × ModuleCounter :=
  (⟨c.value⟩, { c with value := c.value + 1 })

def nextTopo (c : ModuleCounter) : Nat × ModuleCounter :=
  (c.topo, { c with topo := c.topo + 1 })

end ModuleCounter

/-- The next free numbers of one lowered declaration. -/
structure CodeCounter where
  reg : Nat
  loop : Nat
  acc : Nat
  deriving DecidableEq

namespace CodeCounter

def zero : CodeCounter := ⟨0, 0, 0⟩

def nextReg (c : CodeCounter) : Reg × CodeCounter :=
  (⟨c.reg⟩, { c with reg := c.reg + 1 })

def nextLoop (c : CodeCounter) : LoopId × CodeCounter :=
  (⟨c.loop⟩, { c with loop := c.loop + 1 })

def nextAcc (c : CodeCounter) : AccId × CodeCounter :=
  (⟨c.acc⟩, { c with acc := c.acc + 1 })

end CodeCounter
end LoopNest
