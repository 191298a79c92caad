import LoopNest.Proofs.Code.Validity

/-! What is known of code that the check accepts: its loops nest, so that it has a tree, and each
name that it reads is introduced by an instruction before. Whether that instruction is in scope, or
is ever executed, the check does not ask. -/
namespace LoopNest

namespace Scope

variable {before is : List Instr} {i : Instr}

/-- Where the check goes through, no instruction is at fault. -/
theorem atEach_of_through {s : Scope} (h : (past before).through before.length is = .ok s) :
    AtEach (fun before i => (past before).fault? before.length i = none) before is ∧
      s = past (before ++ is) := by
  induction is generalizing before with
  | nil =>
    cases h
    exact ⟨atEach_nil, by rw [List.append_nil]⟩
  | cons i is ih =>
    rw [through] at h
    cases hf : (past before).fault? before.length i with
    | some f =>
      rw [hf] at h
      cases h
    | none =>
      rw [hf] at h
      have hrest : (past (before ++ [i])).through (before ++ [i]).length is = .ok s := by
        rw [past_append_singleton, List.length_append]
        exact h
      obtain ⟨heach, rfl⟩ := ih hrest
      exact ⟨atEach_cons.2 ⟨hf, heach⟩, by rw [← List.append_cons]⟩

theorem fault?_eq_none {s : Scope} {position : Nat} (h : s.fault? position i = none) :
    s.orderFault? position i.op.opcode = none ∧ s.registerFault? i.op = none ∧
      s.blockFault? i.op = none := by
  rw [fault?, Option.or_eq_none_iff, Option.or_eq_none_iff] at h
  exact h

theorem mem_of_registerFault? (h : (past before).registerFault? i.op = none) {r : Reg}
    (hr : r ∈ i.op.inputs) : ∃ d ∈ before, r ∈ d.defs := by
  rw [registerFault?, Option.map_eq_none_iff, List.find?_eq_none] at h
  have hmem : r ∈ (past before).regs := by simpa using h r hr
  exact List.mem_flatMap.1 (mem_regs_past.1 hmem)

theorem mem_of_blockFault? (h : (past before).blockFault? i.op = none) {acc : AccId}
    (ha : acc ∈ i.uses) : ∃ d ∈ before, acc ∈ d.declares := by
  have hmem : acc ∈ (past before).accs := by
    rcases i with ⟨_, op, _⟩
    cases op with
    | accumulate acc' | loadAccumulator acc' =>
      cases List.mem_singleton.1 ha
      by_contra hno
      simp [blockFault?, hno] at h
    | _ => cases ha
  exact List.mem_flatMap.1 (mem_accs_past.1 hmem)

theorem endsInnermost_of_blockFault? (h : (past before).blockFault? i.op = none) :
    i.EndsInnermost before := by
  intro id hid
  rw [hid, blockFault?, loops_past] at h
  cases hopen : openLoops before with
  | nil =>
    rw [hopen] at h
    cases h
  | cons l around =>
    rw [hopen] at h
    refine ⟨l, around, rfl, ?_⟩
    by_contra hne
    simp [hne] at h

/-- Code may end where all loops are closed and a value was yielded. -/
theorem endFault?_eq_none {s : Scope} (h : s.endFault? = none) :
    s.loops = [] ∧ s.yielded = true := by
  unfold endFault? at h
  cases hl : s.loops with
  | cons l around =>
    rw [hl] at h
    cases h
  | nil =>
    refine ⟨rfl, ?_⟩
    by_contra hno
    simp [hl, hno] at h

end Scope

namespace LoopCode

theorem check_eq_ok {c : LoopCode} : c.check = .ok () ↔ checkInstrs c.instrs = .ok () := by
  rw [check]
  cases checkInstrs c.instrs with
  | ok => exact Iff.rfl
  | error e => exact ⟨nofun, nofun⟩

/-- In accepted code no instruction is at fault, and neither is its end. -/
theorem faultless_of_checkInstrs {is : List Instr} (h : checkInstrs is = .ok ()) :
    AtEach (fun before i => (Scope.past before).fault? before.length i = none) [] is ∧
      (Scope.past is).endFault? = none := by
  obtain ⟨s, hs, hend⟩ := Except.bind_eq_ok.1 h
  have hs' : (Scope.past []).through ([] : List Instr).length is = .ok s := hs
  obtain ⟨heach, rfl⟩ := Scope.atEach_of_through hs'
  rw [List.nil_append] at hend
  refine ⟨heach, ?_⟩
  cases hf : (Scope.past is).endFault? with
  | none => rfl
  | some f =>
    rw [hf] at hend
    cases hend

/-- What accepted code is like. -/
theorem of_checkInstrs {is : List Instr} (h : checkInstrs is = .ok ()) :
    AtEach Instr.ReadsIntroduced [] is ∧ AtEach Instr.EndsInnermost [] is ∧ openLoops is = [] := by
  obtain ⟨heach, hend⟩ := faultless_of_checkInstrs h
  have hfault (before : List Instr) (i : Instr) (rest : List Instr)
      (hi : is = before ++ i :: rest) :=
    Scope.fault?_eq_none (heach before i rest hi)
  refine ⟨fun before i rest hi => ?_, fun before i rest hi => ?_, ?_⟩
  · obtain ⟨-, hregs, hblock⟩ := hfault before i rest hi
    exact ⟨fun r hr => Scope.mem_of_registerFault? hregs hr,
      fun acc ha => Scope.mem_of_blockFault? hblock ha⟩
  · exact Scope.endsInnermost_of_blockFault? (hfault before i rest hi).2.2
  · have hloops := (Scope.endFault?_eq_none hend).1
    rw [Scope.loops_past, List.map_eq_nil_iff] at hloops
    exact hloops

end LoopCode

namespace Block

/-- The ends that a reading waits for are those of the open loops. -/
def Awaits (stack : List OpenLoop) (around : List (Instr × Block)) : Prop :=
  List.Forall₂ (fun l p => p.1.op = .loopEnd l.id ∧ p.2.Regular) stack around

/-- The instructions that a reading has gone over. -/
def Reading.instrs (r : Reading) : List Instr :=
  r.1.instrs ++ r.2.flatMap fun p => p.1 :: p.2.instrs

/-- Where each end of a loop fits and all loops are closed, code can be read from its end. -/
theorem exists_reading {before is : List Instr} (hends : AtEach Instr.EndsInnermost before is)
    (hclosed : openLoops (before ++ is) = []) :
    ∃ r : Reading, is.foldrM read (.done, []) = some r ∧ r.1.Regular ∧
      Awaits (openLoops before) r.2 ∧ r.instrs = is := by
  induction is generalizing before with
  | nil =>
    rw [List.append_nil] at hclosed
    exact ⟨(.done, []), rfl, trivial, hclosed ▸ .nil, rfl⟩
  | cons i is ih =>
    obtain ⟨hend, hrest⟩ := atEach_cons.1 hends
    obtain ⟨⟨b, around⟩, hread, hb, hawaits, hinstrs⟩ := ih hrest (by rwa [← List.append_cons])
    have hopen : openLoops (before ++ [i]) = OpenLoop.after (openLoops before) i.op := by
      rw [openLoops_append]
      rfl
    rw [hopen] at hawaits
    rw [List.foldrM_cons, hread]
    rcases i with ⟨result, op, span⟩
    cases op with
    | loopStart axis collection element index id =>
      cases hawaits with
      | @cons _ p _ around' hp haround =>
        obtain ⟨stop, rest⟩ := p
        refine ⟨_, rfl, ⟨⟨id, rfl, hp.1⟩, hb, hp.2⟩, haround, ?_⟩
        rw [← hinstrs]
        simp [Reading.instrs]
    | loopEnd id =>
      obtain ⟨l, outer, houter, hid⟩ := hend id rfl
      rw [houter] at hawaits
      refine ⟨_, rfl, trivial, ?_, ?_⟩
      · rw [houter]
        exact .cons ⟨by rw [hid], hb⟩ hawaits
      · rw [← hinstrs]
        rfl
    | _ =>
      refine ⟨_, rfl, ⟨rfl, hb⟩, hawaits, ?_⟩
      rw [← hinstrs]
      rfl

/-- Accepted code has a tree. -/
theorem exists_of_checkInstrs {is : List Instr} (h : LoopCode.checkInstrs is = .ok ()) :
    ∃ b : Block, ofInstrs? is = some b ∧ b.Regular ∧ b.instrs = is := by
  obtain ⟨-, hends, hclosed⟩ := LoopCode.of_checkInstrs h
  obtain ⟨⟨b, around⟩, hread, hb, hawaits, hinstrs⟩ := exists_reading hends hclosed
  cases hawaits
  refine ⟨b, by rw [ofInstrs?, hread], hb, ?_⟩
  rw [← hinstrs]
  simp [Reading.instrs]

end Block
end LoopNest
