import LoopNest.Proofs.Lowering.Law

/-! Lowering numbers what it introduces from zero on, so no name is introduced twice. -/
namespace LoopNest

theorem counts_plain {op : Op} (h : op.isPlain = true) (span : Span) (c : CodeCounter) :
    Counts [⟨none, op, span⟩] c c := by
  cases op with
  | loopStart | declareAccumulator => cases h
  | _ => exact ⟨.nil _, .nil _, .nil _⟩

theorem counts_result {op : Op} (h : op.isPlain = true) (span : Span) (c : CodeCounter) :
    Counts [⟨some c.nextReg.1, op, span⟩] c c.nextReg.2 := by
  cases op with
  | loopStart | declareAccumulator => cases h
  | _ => exact ⟨.next _, .nil _, .nil _⟩

namespace Emission

/-- The names of the code are numbered from zero up to the counter. -/
def Numbered (st : Emission) : Prop := Counts st.code .zero st.counter

namespace Numbered

variable {st : Emission}

theorem emit (h : st.Numbered) {op : Op} (hop : op.isPlain = true) (span : Span) :
    (st.emit none op span).Numbered :=
  h.append (counts_plain hop span _)

theorem value (h : st.Numbered) {op : Op} (hop : op.isPlain = true) (span : Span) :
    (st.value op span).2.Numbered :=
  h.append (counts_result hop span _)

theorem walk (h : st.Numbered) (base : Reg) (dtype : Option DType) (span : Span)
    (keys : FieldPath) : (st.walk base dtype span keys).2.Numbered := by
  induction keys generalizing st base with
  | nil => exact h
  | cons key keys ih =>
    cases keys with
    | nil => exact h.value rfl span
    | cons next keys => exact ih (h.value rfl span) _

theorem openLoop (h : st.Numbered) (logical : Axes) (axis : Axis) (carrier : FieldPath)
    (collection : Reg) (span : Span) :
    (st.openLoop logical axis carrier collection span).Numbered := by
  have hn : Counts [⟨none, .loopStart axis collection st.counter.nextReg.1
      st.counter.nextReg.2.nextReg.1 st.counter.nextReg.2.nextReg.2.nextLoop.1, span⟩] st.counter
      st.counter.nextReg.2.nextReg.2.nextLoop.2 :=
    ⟨(Consecutive.next _).append (.next _), .next _, .nil _⟩
  exact h.append hn

theorem closeLoops (h : st.Numbered) (span : Span) (n : Nat) : (st.closeLoops span n).Numbered := by
  induction n generalizing st with
  | zero => exact h
  | succ n ih =>
    refine ih ?_
    rw [closeLoop]
    split
    · exact h
    · exact h.emit rfl span

theorem declareAccumulator (h : st.Numbered) (op : String) (identity : Literal) (dtype : DType)
    (span : Span) : (st.declareAccumulator op identity dtype span).2.Numbered := by
  have hn : Counts [⟨none, .declareAccumulator st.counter.nextAcc.1 op identity dtype, span⟩]
      st.counter st.counter.nextAcc.2 :=
    ⟨.nil _, .nil _, .next _⟩
  exact h.append hn

theorem follow (h : st.Numbered) {test : Frame → Bool} {path : FieldPath} {dtype : Option DType}
    {span : Span} {r : Reg} {st' : Emission}
    (hr : Lowering.follow test path dtype span st = .ok (r, st')) : st'.Numbered := by
  rcases Lowering.follow_eq_ok hr with ⟨f, -, hwalk⟩ | ⟨root, keys, -, rfl, hwalk⟩
  · have hst := h.walk f.element dtype span (path.drop f.carrier.length)
    rwa [hwalk] at hst
  · have hload : (st.value (.loadInput root) span).2.Numbered := h.value rfl span
    have hst := hload.walk st.counter.nextReg.1 dtype span keys
    rwa [hwalk] at hst

end Numbered
end Emission

namespace Lowering

/-- What is emitted is numbered on from what is there. -/
def Law.numbering (env : Env) : Law env where
  Between := Emission.Numbered
  Asked _ := True
  Does _ st' _ _ := st'.Numbered
  Known _ _ := True
  Declared _ _ := True
  refl h := h
  trans _ h := h
  between h := h
  known _ _ := trivial
  declared _ _ := trivial
  value span h hop _ _ := ⟨h.value hop.plain span, trivial⟩
  emit span h hop _ _ := h.emit hop.plain span
  declareAccumulator op start dtype span h := ⟨h.declareAccumulator op start dtype span, trivial⟩
  closeLoops span n h := h.closeLoops span n
  setFloor _ h := h
  input _ _ h := ⟨trivial, fun _ _ hr => ⟨h.follow hr, trivial⟩⟩
  openLoop anchor logical h hne := by
    refine ⟨trivial, fun st' hopen => ?_⟩
    obtain ⟨carrier, c, st₁, -, hcollection, rfl⟩ :=
      openLoop_eq_ok (List.getLast?_eq_some_getLast hne) hopen
    exact (h.follow hcollection).openLoop _ _ _ _ _

theorem numbered_lowerBody {env : Env} {body : StampedExpr} {st st' : Emission} (h : st.Numbered)
    (hbody : lowerBody env body st = .ok ((), st')) : st'.Numbered := by
  obtain ⟨_, -, -, -, hok⟩ := Law.holds_lowerBody (L := .numbering env) (.refl env) h body
    (fun _ _ hst _ => (hst.emit rfl _).closeLoops _ _) []
  rw [Logged.lowerBody_fst] at hok
  exact (hok () st' hbody).1

end Lowering

/-- The code of a declaration is numbered from zero. -/
theorem LoopCode.counts_ofDecl {d : StampedDecl} {carriers : CarrierMap} {registry : Registry}
    {c : LoopCode} (h : LoopCode.ofDecl d carriers registry = .ok c) :
    ∃ last, Counts c.instrs .zero last := by
  rw [ofDecl] at h
  split at h
  · cases h
  · rename_i st hst
    cases h
    have hempty : Emission.empty.Numbered := .nil .zero
    exact ⟨st.counter, Lowering.numbered_lowerBody hempty hst⟩

/-- The code of a declaration introduces each of its names once. -/
theorem LoopCode.distinct_ofDecl {d : StampedDecl} {carriers : CarrierMap} {registry : Registry}
    {c : LoopCode} (h : LoopCode.ofDecl d carriers registry = .ok c) : Distinct c.instrs := by
  obtain ⟨last, hlast⟩ := counts_ofDecl h
  exact hlast.distinct

end LoopNest
