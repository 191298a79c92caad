import LoopNest.Proofs.Code.Scoping
import Mathlib.Data.List.Induction

/-! Scopes in loop code as a list: a name is in scope as long as the loops stay open that were open
when it was introduced. Code that follows its scopes as a tree does so as a list. -/
namespace LoopNest

/-- The loops that are open after instructions, innermost first. -/
def openLoops (is : List Instr) : List OpenLoop :=
  is.foldl (fun stack i => OpenLoop.after stack i.op) []

theorem openLoops_append (is js : List Instr) :
    openLoops (is ++ js) = js.foldl (fun stack i => OpenLoop.after stack i.op) (openLoops is) :=
  List.foldl_append

theorem openLoops_block (is : List Instr) {b : Block} (h : b.Regular) :
    openLoops (is ++ b.instrs) = openLoops is := by
  rw [openLoops_append, h.foldl_after]

/-- The loop that an instruction opens. -/
def Instr.loop? (i : Instr) : Option OpenLoop :=
  match i.op with
  | .loopStart axis _ element index id => some ⟨axis, element, index, id⟩
  | _ => none

/-- The loops that are open were opened. -/
theorem openLoops_subset (is : List Instr) : openLoops is ⊆ is.filterMap Instr.loop? := by
  induction is using List.reverseRecOn with
  | nil => exact List.nil_subset _
  | append_singleton is i ih =>
    rw [openLoops_append, List.filterMap_append]
    rcases i with ⟨result, op, span⟩
    have hkeep := List.subset_append_of_subset_left
      ([⟨result, op, span⟩].filterMap Instr.loop?) ih
    cases op with
    | loopStart axis collection element index id =>
      exact List.cons_subset.2 ⟨List.mem_append_right _ List.mem_cons_self, hkeep⟩
    | loopEnd id => exact fun l hl => hkeep (List.mem_of_mem_tail hl)
    | _ => exact hkeep

/-- Inside of a loop one more loop is open, and after its end the same ones are. -/
theorem openLoops_loop (before : List Instr) {start stop : Instr} {id : LoopId}
    (hstart : start.starts = [id]) (hstop : stop.op = .loopEnd id) {body : Block}
    (hbody : body.Regular) :
    ∃ l, l.id = id ∧ openLoops (before ++ [start]) = l :: openLoops before ∧
      openLoops (before ++ [start] ++ body.instrs) = l :: openLoops before ∧
      openLoops (before ++ [start] ++ body.instrs ++ [stop]) = openLoops before := by
  obtain ⟨l, hid, hl⟩ := OpenLoop.after_of_starts hstart (openLoops before)
  have hopen : openLoops (before ++ [start]) = l :: openLoops before := by
    rw [openLoops_append]
    exact hl
  have hinner : openLoops (before ++ [start] ++ body.instrs) = l :: openLoops before := by
    rw [openLoops_block _ hbody, hopen]
  refine ⟨l, hid, hopen, hinner, ?_⟩
  rw [openLoops_append, hinner, List.foldl_cons, hstop]
  rfl

/-- Some loops are open all along instructions that come after others. -/
def HeldOpen (loops : List OpenLoop) (before is : List Instr) : Prop :=
  ∀ mid, mid <+: is → loops <:+ openLoops (before ++ mid)

theorem heldOpen_append {loops : List OpenLoop} {before is js : List Instr} :
    HeldOpen loops before (is ++ js) ↔
      HeldOpen loops before is ∧ HeldOpen loops (before ++ is) js := by
  constructor
  · intro h
    refine ⟨fun mid hmid => h mid (hmid.trans (List.prefix_append _ _)), fun mid hmid => ?_⟩
    rw [List.append_assoc]
    exact h (is ++ mid) ((List.prefix_append_right_inj is).2 hmid)
  · rintro ⟨his, hjs⟩ mid hmid
    rcases List.prefix_or_prefix_of_prefix hmid (List.prefix_append is js) with hle | ⟨rest, rfl⟩
    · exact his mid hle
    · rw [← List.append_assoc]
      exact hjs rest ((List.prefix_append_right_inj is).1 hmid)

theorem heldOpen_cons {loops : List OpenLoop} {before is : List Instr} {i : Instr} :
    HeldOpen loops before (i :: is) ↔
      loops <:+ openLoops before ∧ HeldOpen loops (before ++ [i]) is := by
  rw [← List.singleton_append, heldOpen_append]
  constructor
  · rintro ⟨hi, his⟩
    have hnow := hi [] List.nil_prefix
    rw [List.append_nil] at hnow
    exact ⟨hnow, his⟩
  · rintro ⟨hnow, his⟩
    refine ⟨fun mid hmid => ?_, his⟩
    rcases List.prefix_cons_iff.1 hmid with rfl | ⟨rest, rfl, hrest⟩
    · rwa [List.append_nil]
    · rw [List.prefix_nil.1 hrest]
      have hafter := his [] List.nil_prefix
      rwa [List.append_nil] at hafter

/-- A block closes only the loops that it opens. -/
theorem Block.Regular.heldOpen {b : Block} (h : b.Regular) {loops : List OpenLoop}
    {before : List Instr} (hb : loops <:+ openLoops before) : HeldOpen loops before b.instrs := by
  induction b generalizing before with
  | done =>
    intro mid hmid
    rwa [List.prefix_nil.1 hmid, List.append_nil]
  | step i rest ih =>
    refine heldOpen_cons.2 ⟨hb, ih h.2 ?_⟩
    rwa [openLoops_append, List.foldl_cons, OpenLoop.after_of_not_delimiter h.1, List.foldl_nil]
  | loop start body stop rest ihbody ih =>
    obtain ⟨⟨id, hstart, hstop⟩, hbody, hrest⟩ := h
    obtain ⟨l, -, hopen, hinner, hclosed⟩ := openLoops_loop before hstart hstop hbody
    have hin : loops <:+ l :: openLoops before := hb.trans (List.suffix_cons _ _)
    rw [instrs_loop, heldOpen_cons, heldOpen_append, heldOpen_cons]
    exact ⟨hb, ihbody hbody (hopen ▸ hin), hinner ▸ hin, ih hrest (hclosed ▸ hb)⟩

section InScope

variable {α : Type} {names : Instr → List α} {before : List Instr} {a : α}

/-- A name is in scope after some instructions if one of them introduces it and the loops around
that one are still open. -/
def InScope (names : Instr → List α) (before : List Instr) (a : α) : Prop :=
  ∃ pre i post, before = pre ++ i :: post ∧ a ∈ names i ∧
    HeldOpen (openLoops (pre ++ [i])) (pre ++ [i]) post

theorem InScope.intro {i : Instr} (h : a ∈ names i) : InScope names (before ++ [i]) a := by
  refine ⟨before, i, [], rfl, h, fun mid hmid => ?_⟩
  simp [List.prefix_nil.1 hmid]

theorem InScope.mem (h : InScope names before a) : a ∈ before.flatMap names := by
  obtain ⟨pre, i, post, rfl, ha, -⟩ := h
  simp [ha]

theorem InScope.append {is : List Instr} (h : InScope names before a)
    (his : HeldOpen (openLoops before) before is) : InScope names (before ++ is) a := by
  obtain ⟨pre, i, post, rfl, ha, hpost⟩ := h
  refine ⟨pre, i, post ++ is, by rw [List.append_assoc]; rfl, ha, heldOpen_append.2 ⟨hpost, ?_⟩⟩
  intro mid hmid
  rw [List.append_assoc pre [i]]
  have hnow := hpost post (List.prefix_refl _)
  rw [List.append_assoc pre [i]] at hnow
  exact hnow.trans (his mid hmid)

end InScope

/-- Each instruction has a property that depends on those before it. -/
def AtEach (P : List Instr → Instr → Prop) (before is : List Instr) : Prop :=
  ∀ pre i post, is = pre ++ i :: post → P (before ++ pre) i

section AtEach

variable {P : List Instr → Instr → Prop} {before is js : List Instr}

theorem atEach_nil : AtEach P before [] := fun pre i post h => by
  cases pre with
  | nil => cases h
  | cons j pre => cases h

theorem atEach_cons {i : Instr} :
    AtEach P before (i :: is) ↔ P before i ∧ AtEach P (before ++ [i]) is := by
  constructor
  · intro h
    refine ⟨?_, fun pre j post hj => ?_⟩
    · simpa using h [] i is rfl
    · have := h (i :: pre) j post (by rw [hj, List.cons_append])
      rwa [List.append_cons] at this
  · rintro ⟨hi, his⟩ pre j post hj
    cases pre with
    | nil =>
      cases hj
      rwa [List.append_nil]
    | cons i' pre =>
      cases hj
      rw [List.append_cons]
      exact his pre j post rfl

theorem atEach_append :
    AtEach P before (is ++ js) ↔ AtEach P before is ∧ AtEach P (before ++ is) js := by
  induction is generalizing before with
  | nil => simp [atEach_nil]
  | cons i is ih =>
    rw [List.cons_append, atEach_cons, atEach_cons, ih, and_assoc, ← List.append_cons]

end AtEach

/-- What an instruction reads is in scope: its registers, and its accumulator. -/
def Instr.ReadsInScope (before : List Instr) (i : Instr) : Prop :=
  (∀ r ∈ i.op.inputs, InScope Instr.defs before r) ∧
  ∀ acc ∈ i.uses, InScope Instr.declares before acc

/-- The end of a loop ends the innermost one. -/
def Instr.EndsInnermost (before : List Instr) (i : Instr) : Prop :=
  ∀ id, i.op = .loopEnd id → ∃ l around, openLoops before = l :: around ∧ l.id = id

namespace Block

variable {b : Block}

/-- Code that follows its scopes as a tree does so as a list. -/
theorem Scoped.atEach {regs : List Reg} {accs : List AccId} (h : b.Scoped regs accs)
    (hr : b.Regular) {before : List Instr} (hregs : ∀ r ∈ regs, InScope Instr.defs before r)
    (haccs : ∀ acc ∈ accs, InScope Instr.declares before acc) :
    AtEach Instr.ReadsInScope before b.instrs := by
  -- names stay in scope along what keeps the loops open, with those that are introduced
  have hkeep {α : Type} {names : Instr → List α} {l : List α} {before is : List Instr}
      (hl : ∀ a ∈ l, InScope names before a) (his : HeldOpen (openLoops before) before is) :
      ∀ a ∈ l, InScope names (before ++ is) a := fun a ha => (hl a ha).append his
  have hadd {α : Type} {names : Instr → List α} {l : List α} {before : List Instr} {i : Instr}
      (hl : ∀ a ∈ l, InScope names (before ++ [i]) a) :
      ∀ a ∈ names i ++ l, InScope names (before ++ [i]) a :=
    List.forall_mem_append.2 ⟨fun a ha => InScope.intro ha, hl⟩
  induction b generalizing regs accs before with
  | done => exact atEach_nil
  | step i rest ih =>
    obtain ⟨⟨hin, huse⟩, hrest⟩ := h
    have hi : (Block.step i .done).Regular := ⟨hr.1, trivial⟩
    have hone : HeldOpen (openLoops before) before [i] := hi.heldOpen (List.suffix_refl _)
    exact atEach_cons.2 ⟨⟨fun r hr' => hregs r (hin hr'), fun acc ha => haccs acc (huse ha)⟩,
      ih hrest hr.2 (hadd (hkeep hregs hone)) (hadd (hkeep haccs hone))⟩
  | loop start body stop rest ihbody ih =>
    obtain ⟨hin, hbody, hrest⟩ := h
    obtain ⟨⟨id, hstart, hstop⟩, hrbody, hrrest⟩ := hr
    have hloop : (Block.loop start body stop .done).Regular :=
      ⟨⟨id, hstart, hstop⟩, hrbody, trivial⟩
    have hall : HeldOpen (openLoops before) before ([start] ++ body.instrs ++ [stop]) := by
      have := hloop.heldOpen (List.suffix_refl (openLoops before))
      rwa [instrs_loop, instrs_done, ← List.cons_append] at this
    have hone : HeldOpen (openLoops before) before [start] :=
      (heldOpen_append.1 (heldOpen_append.1 hall).1).1
    have hend : Instr.ReadsInScope (before ++ [start] ++ body.instrs) stop := by
      rw [Instr.ReadsInScope, Instr.uses, hstop]
      exact ⟨fun r hr => (nomatch hr), fun acc ha => nomatch ha⟩
    rw [instrs_loop, atEach_cons, atEach_append, atEach_cons]
    refine ⟨⟨fun r hr => hregs r (hin hr), ?_⟩,
      ihbody hbody hrbody (hadd (hkeep hregs hone)) (hkeep haccs hone), hend, ?_⟩
    · rw [Instr.uses_of_starts hstart]
      exact fun acc ha => nomatch ha
    · refine ih hrest hrrest ?_ ?_
      all_goals
        simp only [List.append_assoc] at hall ⊢
        apply hkeep _ hall
        assumption

/-- In a block the ends of loops fit. -/
theorem Regular.atEach_endsInnermost (h : b.Regular) (before : List Instr) :
    AtEach Instr.EndsInnermost before b.instrs := by
  induction b generalizing before with
  | done => exact atEach_nil
  | step i rest ih =>
    refine atEach_cons.2 ⟨fun id hid => ?_, ih h.2 _⟩
    have hno := h.1
    rw [hid] at hno
    cases hno
  | loop start body stop rest ihbody ih =>
    obtain ⟨⟨id, hstart, hstop⟩, hbody, hrest⟩ := h
    obtain ⟨l, hid, -, hinner, -⟩ := openLoops_loop before hstart hstop hbody
    rw [instrs_loop, atEach_cons, atEach_append, atEach_cons]
    refine ⟨fun id' hid' => ?_, ihbody hbody _, fun id' hid' => ?_, ih hrest _⟩
    · rw [Instr.starts, hid'] at hstart
      cases hstart
    · rw [hstop] at hid'
      cases hid'
      exact ⟨l, _, hinner, hid⟩

end Block
end LoopNest
