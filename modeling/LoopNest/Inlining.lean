import LoopNest.Code.Renaming

/-! Inlining: where the value of another declaration is loaded inside loops over the very axes that
this declaration yields under, its code takes the place of the load. Its own loops over these axes
are left out, and all its names become new ones of the code around. Other loads stay. -/
namespace LoopNest
namespace Inlining

/-- The code of a declaration from its outermost open loop on. Without such a loop it is all of the
code. -/
def fromContext (context : List OpenLoop) (instrs : List Instr) : List Instr :=
  match context with
  | [] => instrs
  | outermost :: _ =>
    let starts (i : Instr) : Bool :=
      match i.op with
      | .loopStart _ _ _ _ id => decide (id = outermost.id)
      | _ => false
    match instrs.dropWhile fun i => !starts i with
    | [] => instrs
    | rest => rest

/-- Whether an instruction starts or ends a loop of the context. -/
def delimits (context : List OpenLoop) (i : Instr) : Bool :=
  match i.op with
  | .loopStart _ _ _ _ id | .loopEnd id => context.any fun l => decide (l.id = id)
  | _ => false

/-- The part of the code that is carried over, yields included. -/
def payload (context : List OpenLoop) (instrs : List Instr) : List Instr :=
  (fromContext context instrs).filter fun i => !delimits context i

/-- The elements and indices of the context become those of the open loops around. -/
def bindLoops (ρ : Renaming) (context site : List OpenLoop) : Renaming :=
  (context.zip site).foldl
    (fun ρ (l, s) => (ρ.setReg l.element s.element).setReg l.index s.index) ρ

/-- Covers the names of the payload; of a yield only the value. -/
def cover (ρ : Renaming) (i : Instr) : Renaming :=
  match i.op with
  | .yield value => ρ.coverReg value
  | _ => ρ.coverInstr i

/-- The value of the last yield. -/
def yielded? (instrs : List Instr) : Option Reg :=
  instrs.foldl (fun last i =>
    match i.op with
    | .yield value => some value
    | _ => last) none

def isLoad : Op → Bool
  | .loadInput _ | .loadField .. => true
  | _ => false

/-- Keeps an instruction if it is no load, or if its result is read later on; with the registers
that are read from here on. -/
def keepLive (i : Instr) (later : List Instr × List Reg) : List Instr × List Reg :=
  if isLoad i.op && !i.result.any later.2.contains then later
  else (i :: later.1, i.op.inputs ++ later.2)

/-- Leaves out the loads that nothing reads, given the register of the value. -/
def pruneLoads (value : Reg) (instrs : List Instr) : List Instr :=
  (instrs.foldr keepLive ([], [value])).1

/-- Code that takes the place of a load. -/
structure Splice where
  code : List Instr
  value : Reg
  counter : CodeCounter

/-- The code of a declaration for use under the loops of a site, with names from a counter on. Code
that never yields has a new register for its value. -/
def splice (callee : LoopCode) (context site : List OpenLoop) (counter : CodeCounter) : Splice :=
  let body := payload context callee.instrs
  let ρ := body.foldl cover (bindLoops (.empty counter) context site)
  let code := (body.filter fun i => !i.isYield).map ρ.instr
  match yielded? body with
  | some r => ⟨pruneLoads (ρ.reg r) code, ρ.reg r, ρ.counter⟩
  | none =>
    let (r, c) := ρ.counter.nextReg
    ⟨pruneLoads r code, r, c⟩

/-- A point of the code that others are spliced into: the next free names, the registers of the
values in place of loads, and the open loops, innermost first. -/
structure Site where
  counter : CodeCounter
  values : List (Reg × Reg)
  loops : List OpenLoop

namespace Site

/-- The register that holds what the code calls `r`. -/
def reg (s : Site) (r : Reg) : Reg := (s.values.lookup r).getD r

/-- The splice for a load of a declaration that is done. The open loops have to be over the axes of
its context. Where a name is defined twice, the code is that of its first definition and the context
that of its last. -/
def splice? (s : Site) (done : List LoopCode) (name : String) : Option Splice :=
  match done.find? (·.name == name), done.reverse.find? (·.name == name) with
  | some callee, some last =>
    let context := last.contextAtYield
    let site := s.loops.reverse
    if context.map OpenLoop.axis = site.map OpenLoop.axis then
      some (splice callee context site s.counter)
    else none
  | _, _ => none

/-- The splice for an instruction, if it is a load that can be replaced, with the register that the
load would have set. -/
def replacement? (s : Site) (done : List LoopCode) (i : Instr) : Option (Reg × Splice) :=
  match i.op, i.result with
  | .loadDeclaration name _ _, some r => (s.splice? done name).map fun p => (r, p)
  | _, _ => none

/-- Inlines into the instructions from a site on. -/
def inline (done : List LoopCode) (s : Site) : List Instr → List Instr
  | [] => []
  | i :: is =>
    match s.replacement? done i with
    | some (r, p) => p.code ++ inline done ⟨p.counter, (r, p.value) :: s.values, s.loops⟩ is
    | none =>
      { i with op := i.op.mapInputs s.reg } ::
        inline done { s with loops := OpenLoop.after s.loops i.op } is

end Site

/-- Inlines declarations that are done into the code of one that follows. -/
def inlineCode (done : List LoopCode) (c : LoopCode) : LoopCode :=
  { c with instrs := Site.inline done ⟨.past c.instrs, [], []⟩ c.instrs }

/-- Inlines into each declaration those before it, in their inlined form. -/
def inlineFrom (done : List LoopCode) : List LoopCode → List LoopCode
  | [] => []
  | c :: cs =>
    let c := inlineCode done c
    c :: inlineFrom (done ++ [c]) cs

end Inlining

def LoopModule.inline (m : LoopModule) : LoopModule := ⟨Inlining.inlineFrom [] m.decls⟩

end LoopNest
