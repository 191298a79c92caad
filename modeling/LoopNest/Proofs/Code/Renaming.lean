import LoopNest.Code.Renaming
import LoopNest.Proofs.Code.Names
import LoopNest.Proofs.Fallible

/-! Renamings that grow by new names: what was there stays, and what is added is distinct. -/
namespace LoopNest

/-- An assignment of names that grew by names from a range. -/
def Grown {α : Type} (number : α → Nat) (names before : List (α × α)) (lo hi : Nat) : Prop :=
  ∃ new, names = new ++ before ∧ Drawn (new.map fun p => number p.2) lo hi ∧
    (new.map Prod.fst).Nodup ∧ ∀ a ∈ new.map Prod.fst, a ∉ before.map Prod.fst

namespace Grown

variable {α : Type} {number : α → Nat} {names before : List (α × α)} {lo hi : Nat}

theorem refl (before : List (α × α)) (n : Nat) : Grown number before before n n :=
  ⟨[], rfl, .nil n, List.nodup_nil, by simp⟩

theorem subset (h : Grown number names before lo hi) :
    before.map Prod.fst ⊆ names.map Prod.fst := by
  obtain ⟨new, rfl, -⟩ := h
  rw [List.map_append]
  exact List.subset_append_right _ _

theorem trans {names' : List (α × α)} {mid : Nat} (h : Grown number names before lo mid)
    (h' : Grown number names' names mid hi) : Grown number names' before lo hi := by
  obtain ⟨new, rfl, hdrawn, hnodup, hout⟩ := h
  obtain ⟨new', rfl, hdrawn', hnodup', hout'⟩ := h'
  rw [List.map_append] at hout'
  refine ⟨new' ++ new, List.append_assoc _ _ _ |>.symm, ?_, ?_, ?_⟩
  · rw [List.map_append]
    exact (hdrawn.append hdrawn').append_comm
  · rw [List.map_append, List.nodup_append]
    refine ⟨hnodup', hnodup, fun a ha b hb he => ?_⟩
    exact hout' a ha (List.mem_append_left _ (he ▸ hb))
  · intro a ha hmem
    rw [List.map_append] at ha
    rcases List.mem_append.1 ha with ha | ha
    · exact hout' a ha (List.mem_append_right _ hmem)
    · exact hout a ha hmem

variable [DecidableEq α]

/-- One more name. -/
theorem next {a b : α} (ha : before.lookup a = none) :
    Grown number ((a, b) :: before) before (number b) (number b + 1) := by
  refine ⟨[(a, b)], rfl, .next _, List.nodup_singleton a, fun c hc hmem => ?_⟩
  rw [List.map_singleton, List.mem_singleton] at hc
  subst hc
  obtain ⟨p, hp, he⟩ := List.mem_map.1 hmem
  have hne := List.lookup_eq_none_iff.1 ha p hp
  rw [he] at hne
  simp at hne

/-- A name that was there keeps its meaning. -/
theorem lookup_eq (h : Grown number names before lo hi) {a : α} (ha : a ∈ before.map Prod.fst) :
    names.lookup a = before.lookup a := by
  obtain ⟨new, rfl, -, -, hout⟩ := h
  have hnone : new.lookup a = none := by
    refine List.lookup_eq_none_iff.2 fun p hp => ?_
    have hne : a ≠ p.1 := fun he => hout p.1 (List.mem_map.2 ⟨p, hp, rfl⟩) (he ▸ ha)
    simpa using hne
  rw [List.lookup_append, hnone, Option.none_or]

/-- Names that were added have distinct new names. -/
theorem drawn (h : Grown number names before lo hi) {l : List α} (hl : l.Nodup)
    (hin : ∀ a ∈ l, a ∈ names.map Prod.fst) (hout : ∀ a ∈ l, a ∉ before.map Prod.fst) :
    Drawn (l.map fun a => number ((names.lookup a).getD a)) lo hi := by
  obtain ⟨new, rfl, hdrawn, hnodup, -⟩ := h
  have hmem : ∀ a ∈ l, ∃ b, (a, b) ∈ new ∧ (new ++ before).lookup a = some b := by
    intro a ha
    have hkey : a ∈ new.map Prod.fst := by
      have := hin a ha
      rw [List.map_append, List.mem_append] at this
      exact this.resolve_right (hout a ha)
    obtain ⟨⟨_, b⟩, hp, rfl⟩ := List.mem_map.1 hkey
    refine ⟨b, hp, ?_⟩
    rw [List.lookup_append, lookup_eq_some_of_nodup hnodup hp, Option.some_or]
  refine ⟨?_, ?_, hdrawn.le⟩
  · refine (List.nodup_map_iff_inj_on hl).2 fun a ha a' ha' he => ?_
    obtain ⟨b, hb, hab⟩ := hmem a ha
    obtain ⟨b', hb', hab'⟩ := hmem a' ha'
    rw [hab, hab'] at he
    have := List.inj_on_of_nodup_map hdrawn.nodup hb hb' he
    exact congrArg Prod.fst this
  · intro n hn
    obtain ⟨a, ha, rfl⟩ := List.mem_map.1 hn
    obtain ⟨b, hb, hab⟩ := hmem a ha
    rw [hab]
    exact hdrawn.bounds _ (List.mem_map.2 ⟨_, hb, rfl⟩)

end Grown

namespace Renaming

@[simp] theorem starts_instr (ρ : Renaming) (i : Instr) :
    (ρ.instr i).starts = i.starts.map ρ.loop := by
  rcases i with ⟨_, op, _⟩
  cases op <;> rfl

@[simp] theorem declares_instr (ρ : Renaming) (i : Instr) :
    (ρ.instr i).declares = i.declares.map ρ.acc := by
  rcases i with ⟨_, op, _⟩
  cases op <;> rfl

/-- A renaming that grew by new names. -/
structure Extends (ρ₀ ρ : Renaming) : Prop where
  regs : Grown Reg.index ρ.regs ρ₀.regs ρ₀.counter.reg ρ.counter.reg
  loops : Grown LoopId.index ρ.loops ρ₀.loops ρ₀.counter.loop ρ.counter.loop
  accs : Grown AccId.index ρ.accs ρ₀.accs ρ₀.counter.acc ρ.counter.acc

/-- What an instruction introduces has a name in the renaming. -/
structure Covers (ρ : Renaming) (i : Instr) : Prop where
  regs : ∀ r ∈ i.defs, r ∈ ρ.regs.map Prod.fst
  loops : ∀ id ∈ i.starts, id ∈ ρ.loops.map Prod.fst
  accs : ∀ a ∈ i.declares, a ∈ ρ.accs.map Prod.fst

variable {ρ₀ ρ ρ' : Renaming}

theorem Extends.refl (ρ : Renaming) : Extends ρ ρ := ⟨.refl _ _, .refl _ _, .refl _ _⟩

theorem Extends.trans (h : Extends ρ₀ ρ) (h' : Extends ρ ρ') : Extends ρ₀ ρ' :=
  ⟨h.regs.trans h'.regs, h.loops.trans h'.loops, h.accs.trans h'.accs⟩

theorem Covers.mono {i : Instr} (h : ρ₀.Covers i) (he : Extends ρ₀ ρ) : ρ.Covers i :=
  ⟨fun r hr => he.regs.subset (h.regs r hr), fun l hl => he.loops.subset (h.loops l hl),
    fun a ha => he.accs.subset (h.accs a ha)⟩

theorem mem_of_lookup {α : Type} [DecidableEq α] {names : List (α × α)} {a b : α}
    (h : names.lookup a = some b) : a ∈ names.map Prod.fst := by
  obtain ⟨l₁, l₂, rfl, -⟩ := List.lookup_eq_some_iff.1 h
  simp

theorem extends_coverReg (ρ : Renaming) (r : Reg) :
    ρ.Extends (ρ.coverReg r) ∧ r ∈ (ρ.coverReg r).regs.map Prod.fst := by
  unfold coverReg
  cases hr : ρ.regs.lookup r with
  | some _ => exact ⟨.refl ρ, mem_of_lookup hr⟩
  | none => exact ⟨⟨.next hr, .refl _ _, .refl _ _⟩, List.mem_cons_self⟩

theorem extends_coverLoop (ρ : Renaming) (id : LoopId) :
    ρ.Extends (ρ.coverLoop id) ∧ id ∈ (ρ.coverLoop id).loops.map Prod.fst := by
  unfold coverLoop
  cases hl : ρ.loops.lookup id with
  | some _ => exact ⟨.refl ρ, mem_of_lookup hl⟩
  | none => exact ⟨⟨.refl _ _, .next hl, .refl _ _⟩, List.mem_cons_self⟩

theorem extends_coverAcc (ρ : Renaming) (a : AccId) :
    ρ.Extends (ρ.coverAcc a) ∧ a ∈ (ρ.coverAcc a).accs.map Prod.fst := by
  unfold coverAcc
  cases ha : ρ.accs.lookup a with
  | some _ => exact ⟨.refl ρ, mem_of_lookup ha⟩
  | none => exact ⟨⟨.refl _ _, .refl _ _, .next ha⟩, List.mem_cons_self⟩

theorem extends_coverRegs (ρ : Renaming) (rs : List Reg) :
    ρ.Extends (ρ.coverRegs rs) ∧ ∀ r ∈ rs, r ∈ (ρ.coverRegs rs).regs.map Prod.fst := by
  induction rs generalizing ρ with
  | nil => exact ⟨.refl ρ, fun r hr => nomatch hr⟩
  | cons r rs ih =>
    obtain ⟨hone, hmem⟩ := ρ.extends_coverReg r
    obtain ⟨hrest, hall⟩ := ih (ρ.coverReg r)
    refine ⟨hone.trans hrest, fun q hq => ?_⟩
    rcases List.mem_cons.1 hq with rfl | hq
    · exact hrest.regs.subset hmem
    · exact hall q hq

/-- Covering an instruction adds what it introduces. -/
theorem extends_coverInstr (ρ : Renaming) (i : Instr) :
    ρ.Extends (ρ.coverInstr i) ∧ (ρ.coverInstr i).Covers i := by
  obtain ⟨hin, -⟩ := ρ.extends_coverRegs i.op.inputs
  obtain ⟨hloop, hloopRegs⟩ := (ρ.coverRegs i.op.inputs).extends_coverRegs i.op.loopRegisters
  set ρ₁ := (ρ.coverRegs i.op.inputs).coverRegs i.op.loopRegisters with hρ₁
  obtain ⟨hop, hstarts, hdeclares⟩ : ρ₁.Extends (ρ.coverOp i.op) ∧
      (∀ id ∈ i.starts, id ∈ (ρ.coverOp i.op).loops.map Prod.fst) ∧
      ∀ a ∈ i.declares, a ∈ (ρ.coverOp i.op).accs.map Prod.fst := by
    rcases i with ⟨result, op, span⟩
    have hnone {α : Type} {l : List α} : ∀ a ∈ ([] : List α), a ∈ l := fun a ha => nomatch ha
    cases op with
    | loopStart axis collection element index id =>
      obtain ⟨hext, hmem⟩ := ρ₁.extends_coverLoop id
      exact ⟨hext, fun l hl => List.mem_singleton.1 hl ▸ hmem, hnone⟩
    | loopEnd id => exact ⟨(ρ₁.extends_coverLoop id).1, hnone, hnone⟩
    | declareAccumulator acc op identity dtype =>
      obtain ⟨hext, hmem⟩ := ρ₁.extends_coverAcc acc
      exact ⟨hext, hnone, fun a ha => List.mem_singleton.1 ha ▸ hmem⟩
    | accumulate acc => exact ⟨(ρ₁.extends_coverAcc acc).1, hnone, hnone⟩
    | loadAccumulator acc => exact ⟨(ρ₁.extends_coverAcc acc).1, hnone, hnone⟩
    | _ => exact ⟨.refl ρ₁, hnone, hnone⟩
  obtain ⟨hresult, hresultRegs⟩ := (ρ.coverOp i.op).extends_coverRegs i.result.toList
  refine ⟨((hin.trans hloop).trans hop).trans hresult,
    ⟨fun r hr => ?_, fun id hid => ?_, fun a ha => ?_⟩⟩
  · rcases List.mem_append.1 hr with hr | hr
    · exact hresultRegs r hr
    · exact hresult.regs.subset (hop.regs.subset (hloopRegs r hr))
  · exact hresult.loops.subset (hstarts id hid)
  · exact hresult.accs.subset (hdeclares a ha)

end Renaming
end LoopNest
