import LoopNest.Validity
import LoopNest.Proofs.Code.Visibility
import LoopNest.Proofs.Fallible
import Mathlib.Data.List.Induction

/-! Which code is valid: the check goes through where each instruction reads what is introduced
before, the ends of loops fit, and only ends of loops follow the one yield. -/
namespace LoopNest

/-- An instruction reads only what an instruction before introduces. -/
def Instr.ReadsIntroduced (before : List Instr) (i : Instr) : Prop :=
  (∀ r ∈ i.op.inputs, ∃ d ∈ before, r ∈ d.defs) ∧ ∀ acc ∈ i.uses, ∃ d ∈ before, acc ∈ d.declares

theorem Instr.ReadsInScope.introduced {before : List Instr} {i : Instr}
    (h : i.ReadsInScope before) : i.ReadsIntroduced before :=
  ⟨fun r hr => List.mem_flatMap.1 (h.1 r hr).mem, fun acc ha => List.mem_flatMap.1 (h.2 acc ha).mem⟩

theorem Instr.ReadsIntroduced.mono {before later : List Instr} {i : Instr}
    (h : i.ReadsIntroduced before) (hle : before <+: later) : i.ReadsIntroduced later := by
  refine ⟨fun r hr => ?_, fun acc ha => ?_⟩
  · obtain ⟨d, hd, hdefs⟩ := h.1 r hr
    exact ⟨d, hle.subset hd, hdefs⟩
  · obtain ⟨d, hd, hdeclares⟩ := h.2 acc ha
    exact ⟨d, hle.subset hd, hdeclares⟩

namespace Scope

/-- What is in scope after instructions. -/
def past (is : List Instr) : Scope := is.foldl after empty

theorem past_append_singleton (is : List Instr) (i : Instr) :
    past (is ++ [i]) = (past is).after i := by
  rw [past, List.foldl_append]
  rfl

theorem regs_after (s : Scope) (i : Instr) : (s.after i).regs = i.defs ++ s.regs := by
  rcases i with ⟨_, op, _⟩
  cases op <;> rfl

theorem accs_after (s : Scope) (i : Instr) : (s.after i).accs = i.declares ++ s.accs := by
  rcases i with ⟨_, op, _⟩
  cases op <;> rfl

theorem yielded_after (s : Scope) (i : Instr) : (s.after i).yielded = (s.yielded || i.isYield) := by
  rcases i with ⟨_, op, _⟩
  cases op <;> simp [after, Instr.isYield, Op.opcode]

theorem loops_after {s : Scope} {stack : List OpenLoop} (h : s.loops = stack.map OpenLoop.id)
    (i : Instr) : (s.after i).loops = (OpenLoop.after stack i.op).map OpenLoop.id := by
  rcases i with ⟨_, op, _⟩
  cases op <;> simp [after, OpenLoop.after, h]

theorem mem_regs_past {is : List Instr} {r : Reg} :
    r ∈ (past is).regs ↔ r ∈ is.flatMap Instr.defs := by
  induction is using List.reverseRecOn with
  | nil => rfl
  | append_singleton is i ih =>
    rw [past_append_singleton, regs_after]
    simp [ih, or_comm]

theorem mem_accs_past {is : List Instr} {acc : AccId} :
    acc ∈ (past is).accs ↔ acc ∈ is.flatMap Instr.declares := by
  induction is using List.reverseRecOn with
  | nil => rfl
  | append_singleton is i ih =>
    rw [past_append_singleton, accs_after]
    simp [ih, or_comm]

theorem yielded_past (is : List Instr) : (past is).yielded = is.any Instr.isYield := by
  induction is using List.reverseRecOn with
  | nil => rfl
  | append_singleton is i ih =>
    rw [past_append_singleton, yielded_after]
    simp [ih]

theorem loops_past (is : List Instr) : (past is).loops = (openLoops is).map OpenLoop.id := by
  induction is using List.reverseRecOn with
  | nil => rfl
  | append_singleton is i ih =>
    rw [past_append_singleton, loops_after ih, openLoops_append]
    rfl

/-- The check goes through where no instruction is at fault. -/
theorem through_eq_ok {before is : List Instr}
    (h : AtEach (fun before i => (past before).fault? before.length i = none) before is) :
    (past before).through before.length is = .ok (past (before ++ is)) := by
  induction is generalizing before with
  | nil => rw [through, List.append_nil]
  | cons i is ih =>
    obtain ⟨hi, his⟩ := atEach_cons.1 h
    have hrest := ih his
    rw [past_append_singleton, List.length_append] at hrest
    rw [through, hi, List.append_cons]
    exact hrest

variable {before : List Instr} {i : Instr}

theorem registerFault?_eq_none (h : i.ReadsIntroduced before) :
    (past before).registerFault? i.op = none := by
  rw [registerFault?, Option.map_eq_none_iff, List.find?_eq_none]
  intro r hr
  have hmem := mem_regs_past.2 (List.mem_flatMap.2 (h.1 r hr))
  simp [hmem]

theorem blockFault?_eq_none (h : i.ReadsIntroduced before) (he : i.EndsInnermost before) :
    (past before).blockFault? i.op = none := by
  rcases i with ⟨_, op, _⟩
  cases op with
  | accumulate acc | loadAccumulator acc =>
    have hmem := mem_accs_past.2 (List.mem_flatMap.2 (h.2 acc (List.mem_singleton_self acc)))
    simp [blockFault?, hmem]
  | loopEnd id =>
    obtain ⟨l, around, hopen, rfl⟩ := he id rfl
    have hloops := loops_past before
    rw [hopen, List.map_cons] at hloops
    simp [blockFault?, hloops]
  | _ => rfl

/-- In code that ends with its yield, each instruction stands in order. -/
theorem atEach_orderFault? {pre post : List Instr} {y : Instr} (hpre : ∀ i ∈ pre, i.isYield = false)
    (hpost : ∀ i ∈ post, i.op.opcode = .loopEnd) :
    AtEach (fun before i => (past before).orderFault? before.length i.op.opcode = none) []
      (pre ++ y :: post) := by
  have hnone {before : List Instr} (h : ∀ i ∈ before, i.isYield = false) (i : Instr) :
      (past before).orderFault? before.length i.op.opcode = none := by
    have hno : (past before).yielded = false := by simpa [yielded_past] using h
    simp [orderFault?, hno]
  refine atEach_append.2 ⟨?_, atEach_cons.2 ⟨hnone hpre y, ?_⟩⟩
  · rintro before i rest rfl
    exact hnone (fun j hj => hpre j (List.mem_append_left _ hj)) i
  · rintro before i rest rfl
    simp [orderFault?, hpost i]

end Scope

namespace LoopCode

/-- Code is valid if it reads what is introduced before, its loops nest, and it ends with its yield.
-/
theorem checkInstrs_eq_ok {is : List Instr} (hreads : AtEach Instr.ReadsIntroduced [] is)
    (hends : AtEach Instr.EndsInnermost [] is) (hclosed : openLoops is = []) {pre post : List Instr}
    {y : Instr} (his : is = pre ++ y :: post) (hpre : ∀ i ∈ pre, i.isYield = false)
    (hy : y.isYield = true) (hpost : ∀ i ∈ post, i.op.opcode = .loopEnd) :
    checkInstrs is = .ok () := by
  have horder := Scope.atEach_orderFault? (y := y) hpre hpost
  rw [← his] at horder
  have hfault :
      AtEach (fun before i => (Scope.past before).fault? before.length i = none) [] is := by
    intro before i rest hsplit
    rw [Scope.fault?, horder before i rest hsplit,
      Scope.registerFault?_eq_none (hreads before i rest hsplit),
      Scope.blockFault?_eq_none (hreads before i rest hsplit) (hends before i rest hsplit)]
    rfl
  have hthrough : Scope.empty.through 0 is = .ok (Scope.past is) := Scope.through_eq_ok hfault
  have hloops : (Scope.past is).loops = [] := by rw [Scope.loops_past, hclosed, List.map_nil]
  have hyielded : (Scope.past is).yielded = true := by
    rw [Scope.yielded_past, his]
    simp [hy]
  have hend : (Scope.past is).endFault? = none := by
    rw [Scope.endFault?, hloops]
    simp [hyielded]
  rw [checkInstrs]
  refine Except.bind_eq_ok.2 ⟨_, hthrough, ?_⟩
  simp only [hend]
  rfl

end LoopCode
end LoopNest
