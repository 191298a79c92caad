import LoopNest.Code.Basic

/-! The code of a declaration while it is emitted, with the loops that are open at its end. -/
namespace LoopNest

/-- An open loop. -/
structure Frame where
  /-- The axes up to and with the one that the loop runs over. -/
  logical : Axes
  carrier : FieldPath
  element : Reg
  id : LoopId
  deriving DecidableEq

/-- The code so far. The frames are the open loops, innermost first; the outermost `floor` of them
belong to a reduction that is under way and stay open. -/
structure Emission where
  counter : CodeCounter
  code : List Instr
  frames : List Frame
  floor : Nat

namespace Emission

def empty : Emission := ⟨.zero, [], [], 0⟩

/-- The axes of the innermost open loop. -/
def logical (e : Emission) : Axes :=
  match e.frames with
  | [] => []
  | f :: _ => f.logical

/-- Appends an instruction. -/
def emit (e : Emission) (result : Option Reg) (op : Op) (span : Span) : Emission :=
  { e with code := e.code ++ [⟨result, op, span⟩] }

@[simp] theorem code_emit (e : Emission) (result : Option Reg) (op : Op) (span : Span) :
    (e.emit result op span).code = e.code ++ [⟨result, op, span⟩] := rfl

@[simp] theorem frames_emit (e : Emission) (result : Option Reg) (op : Op) (span : Span) :
    (e.emit result op span).frames = e.frames := rfl

@[simp] theorem counter_emit (e : Emission) (result : Option Reg) (op : Op) (span : Span) :
    (e.emit result op span).counter = e.counter := rfl

/-- Appends an instruction with a new register for its result. -/
def value (e : Emission) (op : Op) (span : Span) : Reg × Emission :=
  let (r, c) := e.counter.nextReg
  (r, { e with counter := c }.emit (some r) op span)

/-- Loads the fields of a path one after the other, starting from a register. The last one has the
given type. -/
def walk (e : Emission) (base : Reg) (dtype : Option DType) (span : Span) :
    FieldPath → Reg × Emission
  | [] => (base, e)
  | [key] => e.value (.loadField base key dtype) span
  | key :: keys =>
    let (r, e) := e.value (.loadField base key none) span
    e.walk r dtype span keys

/-- Starts a loop over a collection, which becomes the innermost one. -/
def openLoop (e : Emission) (logical : Axes) (axis : Axis) (carrier : FieldPath) (collection : Reg)
    (span : Span) : Emission :=
  let (element, c) := e.counter.nextReg
  let (index, c) := c.nextReg
  let (id, c) := c.nextLoop
  let e := { e with counter := c }.emit none (.loopStart axis collection element index id) span
  { e with frames := ⟨logical, carrier, element, id⟩ :: e.frames }

/-- Ends the innermost loop. -/
def closeLoop (e : Emission) (span : Span) : Emission :=
  match e.frames with
  | [] => e
  | f :: fs => { e.emit none (.loopEnd f.id) span with frames := fs }

/-- Ends the innermost `n` loops. -/
def closeLoops (e : Emission) (span : Span) : Nat → Emission
  | 0 => e
  | n + 1 => (e.closeLoop span).closeLoops span n

theorem frames_closeLoop (e : Emission) (span : Span) :
    (e.closeLoop span).frames = e.frames.tail := by
  rw [closeLoop]
  split
  case h_1 h => simp [h]
  case h_2 h => simp [h]

theorem frames_closeLoops (e : Emission) (span : Span) (n : Nat) :
    (e.closeLoops span n).frames = e.frames.drop n := by
  induction n generalizing e with
  | zero => rfl
  | succ n ih => rw [closeLoops, ih, frames_closeLoop, List.drop_tail]

/-- Ends loops until only the outermost `depth` are open. -/
def closeTo (e : Emission) (depth : Nat) (span : Span) : Emission :=
  e.closeLoops span (e.frames.length - depth)

/-- Ends the loops over axes that are not among the first `keep`, down to the floor. -/
def closeBeyond (e : Emission) (keep : Nat) (span : Span) : Emission :=
  let free := e.frames.take (e.frames.length - e.floor)
  e.closeLoops span (free.takeWhile fun f => decide (keep < f.logical.length)).length

/-- Declares a new accumulator. -/
def declareAccumulator (e : Emission) (op : String) (identity : Literal) (dtype : DType)
    (span : Span) : AccId × Emission :=
  let (acc, c) := e.counter.nextAcc
  (acc, { e with counter := c }.emit none (.declareAccumulator acc op identity dtype) span)

end Emission
end LoopNest
