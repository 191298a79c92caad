import LoopNest.Proofs.Code.Acceptance

/-! Well-formed code, said without the check: what is read was introduced before, the starts and the
ends of loops nest like brackets, and one yield stands last but for ends of loops. The check accepts
just the code that is well formed. -/
namespace LoopNest

/-- The start or the end of a loop. -/
inductive Bracket where
  | start (id : LoopId)
  | stop (id : LoopId)

/-- Brackets nest, and each end names the loop whose start it matches. The same name may come again,
also inside of its own loop. -/
inductive Bracket.Nested : List Bracket → Prop
  | nil : Nested []
  | loop {id : LoopId} {inner rest : List Bracket} :
    Nested inner → Nested rest → Nested (.start id :: (inner ++ .stop id :: rest))

/-- The bracket that an instruction is. -/
def Instr.bracket? (i : Instr) : Option Bracket :=
  match i.op with
  | .loopStart _ _ _ _ id => some (.start id)
  | .loopEnd id => some (.stop id)
  | _ => none

namespace LoopCode

/-- The rules for instructions. -/
structure WellFormed (is : List Instr) : Prop where
  /-- A register that is read is a result or a register of a loop, by an instruction before. -/
  registers : ∀ before i rest, is = before ++ i :: rest →
    ∀ r ∈ i.op.inputs, ∃ d ∈ before, d.result = some r ∨ r ∈ d.op.loopRegisters
  /-- An accumulator that is added to or read was declared before. -/
  accumulators : ∀ before i rest, is = before ++ i :: rest →
    ∀ acc ∈ i.uses, ∃ d ∈ before, acc ∈ d.declares
  loops : Bracket.Nested (is.filterMap Instr.bracket?)
  oneYield : is.countP Instr.isYield = 1
  /-- Only ends of loops come after the yield. -/
  yieldLast : ∀ before y rest, is = before ++ y :: rest → y.isYield = true →
    ∀ i ∈ rest, i.op.opcode = .loopEnd

end LoopCode

section Brackets

variable {i : Instr} {id : LoopId}

theorem Instr.bracket?_eq_none_iff : i.bracket? = none ↔ i.op.isDelimiter = false := by
  rcases i with ⟨_, op, _⟩
  cases op <;> simp [bracket?, Op.isDelimiter]

theorem Instr.bracket?_eq_start_iff : i.bracket? = some (.start id) ↔ i.starts = [id] := by
  rcases i with ⟨_, op, _⟩
  cases op <;> simp [bracket?, starts]

theorem Instr.bracket?_eq_stop_iff : i.bracket? = some (.stop id) ↔ i.op = .loopEnd id := by
  rcases i with ⟨_, op, _⟩
  cases op <;> simp [bracket?]

/-- The brackets of a block nest as its loops do. -/
theorem Block.Regular.nested {b : Block} (h : b.Regular) :
    Bracket.Nested (b.instrs.filterMap Instr.bracket?) := by
  induction b with
  | done => exact .nil
  | step i rest ih =>
    rw [instrs_step, List.filterMap_cons_none (Instr.bracket?_eq_none_iff.2 h.1)]
    exact ih h.2
  | loop start body stop rest ihbody ih =>
    obtain ⟨⟨id, hstart, hstop⟩, hbody, hrest⟩ := h
    rw [instrs_loop, List.filterMap_cons_some (Instr.bracket?_eq_start_iff.2 hstart),
      List.filterMap_append, List.filterMap_cons_some (Instr.bracket?_eq_stop_iff.2 hstop)]
    exact .loop (ihbody hbody) (ih hrest)

/-- Instructions whose brackets nest are those of a block. -/
theorem Bracket.Nested.exists_block {word : List Bracket} (h : Nested word) {is : List Instr}
    (his : is.filterMap Instr.bracket? = word) : ∃ b : Block, b.Regular ∧ b.instrs = is := by
  have hplain {js : List Instr} (hjs : ∀ i ∈ js, i.bracket? = none) :
      ∀ i ∈ js, i.op.isDelimiter = false :=
    fun i hi => Instr.bracket?_eq_none_iff.1 (hjs i hi)
  induction h generalizing is with
  | nil =>
    have hnone := List.filterMap_eq_nil_iff.1 his
    exact ⟨Block.steps is .done, .steps (hplain hnone) trivial, by simp⟩
  | @loop id inner rest _ _ ihinner ihrest =>
    -- the outermost loop, with what comes before its start and before its end
    obtain ⟨before, start, tail, rfl, hbefore, hstart, htail⟩ := List.filterMap_eq_cons_iff.1 his
    obtain ⟨middle, behind, rfl, hmiddle, hbehind⟩ := List.filterMap_eq_append_iff.1 htail
    obtain ⟨plain, stop, after, rfl, hplainstop, hstop, hafter⟩ :=
      List.filterMap_eq_cons_iff.1 hbehind
    have hbody : (middle ++ plain).filterMap Instr.bracket? = inner := by
      rw [List.filterMap_append, hmiddle, List.filterMap_eq_nil_iff.2 hplainstop, List.append_nil]
    obtain ⟨body, hregular, hinstrs⟩ := ihinner hbody
    obtain ⟨b, hb, hrest⟩ := ihrest hafter
    refine ⟨Block.steps before (.loop start body stop b), .steps (hplain hbefore)
      ⟨⟨id, Instr.bracket?_eq_start_iff.1 hstart, Instr.bracket?_eq_stop_iff.1 hstop⟩,
        hregular, hb⟩, ?_⟩
    simp [hinstrs, hrest]

end Brackets

namespace Scope

/-- After a yield only the end of a loop is in order. -/
theorem opcode_of_orderFault? {before : List Instr} {i : Instr}
    (h : (past before).orderFault? before.length i.op.opcode = none)
    (hy : ∃ y ∈ before, y.isYield = true) : i.op.opcode = .loopEnd := by
  have hyielded : (past before).yielded = true := by
    rw [yielded_past]
    exact List.any_eq_true.2 hy
  unfold orderFault? at h
  rw [if_pos hyielded] at h
  cases hop : i.op.opcode with
  | loopEnd => rfl
  | _ =>
    rw [hop] at h
    cases h

end Scope

namespace LoopCode

variable {is : List Instr}

theorem not_isYield_of_loopEnd {i : Instr} (h : i.op.opcode = .loopEnd) : i.isYield = false := by
  rw [Instr.isYield, h]
  rfl

/-- Code with a yield, in which only ends of loops follow one, yields once. -/
theorem countP_isYield (hlast : ∀ before y rest, is = before ++ y :: rest → y.isYield = true →
      ∀ i ∈ rest, i.op.opcode = .loopEnd) (hsome : ∃ y ∈ is, y.isYield = true) :
    is.countP Instr.isYield = 1 := by
  obtain ⟨y, hmem, hy⟩ := hsome
  obtain ⟨before, rest, rfl⟩ := List.append_of_mem hmem
  have hrest : rest.countP Instr.isYield = 0 := by
    rw [List.countP_eq_zero]
    intro i hi
    simp [not_isYield_of_loopEnd (hlast before y rest rfl hy i hi)]
  have hbefore : before.countP Instr.isYield = 0 := by
    rw [List.countP_eq_zero]
    -- an earlier yield would have the yield itself after it
    intro y' hy' hyields
    obtain ⟨pre, mid, rfl⟩ := List.append_of_mem hy'
    have hend := hlast pre y' (mid ++ y :: rest) (by simp) hyields y (by simp)
    rw [not_isYield_of_loopEnd hend] at hy
    cases hy
  rw [List.countP_append, List.countP_cons_of_pos hy, hbefore, hrest]

theorem wellFormed_of_checkInstrs (h : checkInstrs is = .ok ()) : WellFormed is := by
  obtain ⟨heach, hend⟩ := faultless_of_checkInstrs h
  obtain ⟨hreads, -, -⟩ := of_checkInstrs h
  obtain ⟨b, -, hregular, hinstrs⟩ := Block.exists_of_checkInstrs h
  have hlast : ∀ before y rest, is = before ++ y :: rest → y.isYield = true →
      ∀ i ∈ rest, i.op.opcode = .loopEnd := by
    intro before y rest his hy i hi
    obtain ⟨mid, post, rfl⟩ := List.append_of_mem hi
    have horder := (Scope.fault?_eq_none (heach (before ++ y :: mid) i post (by simp [his]))).1
    exact Scope.opcode_of_orderFault? horder ⟨y, by simp, hy⟩
  have hsome : ∃ y ∈ is, y.isYield = true := by
    have hyielded := (Scope.endFault?_eq_none hend).2
    rw [Scope.yielded_past] at hyielded
    exact List.any_eq_true.1 hyielded
  refine ⟨fun before i rest hi r hr => ?_, fun before i rest hi => (hreads before i rest hi).2, ?_,
    countP_isYield hlast hsome, hlast⟩
  · obtain ⟨d, hd, hdefs⟩ := (hreads before i rest hi).1 r hr
    refine ⟨d, hd, ?_⟩
    simpa [Instr.defs] using hdefs
  · exact hinstrs ▸ hregular.nested

theorem WellFormed.checkInstrs_eq_ok (h : WellFormed is) : checkInstrs is = .ok () := by
  obtain ⟨b, hb, rfl⟩ := h.loops.exists_block rfl
  have hreads : AtEach Instr.ReadsIntroduced [] b.instrs := by
    intro before i rest hi
    refine ⟨fun r hr => ?_, h.accumulators before i rest hi⟩
    obtain ⟨d, hd, hdefs⟩ := h.registers before i rest hi r hr
    refine ⟨d, hd, ?_⟩
    simpa [Instr.defs] using hdefs
  -- the one yield divides the code
  obtain ⟨y, hmem, hy⟩ : ∃ y ∈ b.instrs, y.isYield = true := by
    rw [← List.countP_pos_iff, h.oneYield]
    exact Nat.one_pos
  obtain ⟨pre, post, hsplit⟩ := List.append_of_mem hmem
  have hpre : ∀ i ∈ pre, i.isYield = false := by
    have hone := h.oneYield
    rw [hsplit, List.countP_append, List.countP_cons_of_pos hy] at hone
    have hzero : pre.countP Instr.isYield = 0 := by omega
    simpa using List.countP_eq_zero.1 hzero
  exact LoopCode.checkInstrs_eq_ok hreads (hb.atEach_endsInnermost []) (openLoops_block [] hb)
    hsplit hpre hy (h.yieldLast pre y post hsplit hy)

/-- The check accepts just the code that is well formed. -/
theorem check_accepts_wellFormed (c : LoopCode) : c.check = .ok () ↔ WellFormed c.instrs := by
  rw [check_eq_ok]
  exact ⟨wellFormed_of_checkInstrs, WellFormed.checkInstrs_eq_ok⟩

end LoopCode
end LoopNest
