import LoopNest.Proofs.Code.Typing
import LoopNest.Proofs.Code.Validity
import LoopNest.Proofs.Lowering.Numbering

/-! What holds of code while it is emitted, whatever the stamps of expressions say: it is valid up
to its end, the frames are the loops that it leaves open, and the element of each frame stands for
the carrier. Each instruction that is appended keeps this, if what it reads is there. -/
namespace LoopNest

/-- The axis and the collection of a loop that starts. -/
def Instr.opening? (i : Instr) : Option (Axis × Reg) :=
  match i.op with
  | .loopStart axis collection _ _ _ => some (axis, collection)
  | _ => none

theorem Instr.of_not_delimiter {i : Instr} (h : i.op.isDelimiter = false) (before : List Instr) :
    i.EndsInnermost before ∧ i.opening? = none := by
  rcases i with ⟨_, op, _⟩
  cases op with
  | loopStart | loopEnd => cases h
  | _ => exact ⟨fun id hid => (nomatch hid), rfl⟩

namespace Emission

/-- A register stands for the field at a path. -/
def Resolves (st : Emission) (r : Reg) (path : FieldPath) : Prop :=
  (LoopCode.follow? st.code.reverse r).map (List.filterMap Hop.key?) = some path

structure Sound (st : Emission) : Prop where
  numbered : st.Numbered
  reads : AtEach Instr.ReadsIntroduced [] st.code
  ends : AtEach Instr.EndsInnermost [] st.code
  loops : (openLoops st.code).map OpenLoop.id = st.frames.map Frame.id
  resolved : ∀ f ∈ st.frames, st.Resolves f.element f.carrier
  carried : ∀ f ∈ st.frames, f.carrier ≠ []

theorem sound_empty : Emission.empty.Sound where
  numbered := .nil .zero
  reads := atEach_nil
  ends := atEach_nil
  loops := rfl
  resolved := List.forall_mem_nil _
  carried := List.forall_mem_nil _

/-- The code is continued, loops are opened, and nothing is yielded. -/
structure Grows (st st' : Emission) (opened : List (Axis × Reg)) : Prop where
  sound : st'.Sound
  code : st.code <+: st'.code
  opened : st'.code.filterMap Instr.opening? = st.code.filterMap Instr.opening? ++ opened
  silent : ∀ i ∈ st'.code, i.isYield = true → i ∈ st.code

variable {st st' st'' : Emission}

theorem Grows.trans {os os' : List (Axis × Reg)} (h : st.Grows st' os) (h' : st'.Grows st'' os') :
    st.Grows st'' (os ++ os') :=
  ⟨h'.sound, h.code.trans h'.code, by rw [h'.opened, h.opened, List.append_assoc],
    fun i hi hy => h.silent i (h'.silent i hi hy) hy⟩

/-- One instruction more that is no yield. -/
theorem Sound.grows (h : st'.Sound) {i : Instr} (hcode : st'.code = st.code ++ [i])
    (hyield : i.isYield = false) : st.Grows st' i.opening?.toList := by
  refine ⟨h, ⟨[i], hcode.symm⟩, ?_, fun j hj hy => ?_⟩
  · rw [hcode, List.filterMap_append]
    cases hi : i.opening? <;> simp [hi]
  · rw [hcode, List.mem_append, List.mem_singleton] at hj
    rcases hj with hj | rfl
    · exact hj
    · rw [hyield] at hy
      cases hy

theorem Resolves.mono {r : Reg} {path : FieldPath} (h : st.Resolves r path)
    (hle : st.code <+: st'.code) (hst : st'.Numbered) : st'.Resolves r path := by
  obtain ⟨hops, hfollow, hpath⟩ := Option.map_eq_some_iff.1 h
  exact Option.map_eq_some_iff.2 ⟨hops, LoopCode.follow?_mono hle hst.distinct.regs hfollow, hpath⟩

theorem Resolves.exists_defs {r : Reg} {path : FieldPath} (h : st.Resolves r path) :
    ∃ i ∈ st.code, r ∈ i.defs := by
  obtain ⟨hops, hfollow, -⟩ := Option.map_eq_some_iff.1 h
  obtain ⟨i, hi, hr⟩ := LoopCode.exists_defs_of_follow? hfollow
  exact ⟨i, List.mem_reverse.1 hi, hr⟩

namespace Sound

theorem refl (h : st.Sound) : st.Grows st [] :=
  ⟨h, List.prefix_refl _, (List.append_nil _).symm, fun _ hi _ => hi⟩

/-- One instruction more, and frames that are old or stand for their carriers. -/
theorem append (h : st.Sound) {i : Instr} (hcode : st'.code = st.code ++ [i])
    (hnumbered : st'.Numbered) (hreads : i.ReadsIntroduced st.code)
    (hends : i.EndsInnermost st.code)
    (hloops : (OpenLoop.after (openLoops st.code) i.op).map OpenLoop.id = st'.frames.map Frame.id)
    (hframes : ∀ f ∈ st'.frames, f ∈ st.frames ∨
      st'.Resolves f.element f.carrier ∧ f.carrier ≠ []) : st'.Sound := by
  have hle : st.code <+: st'.code := ⟨[i], hcode.symm⟩
  have hopen : openLoops st'.code = OpenLoop.after (openLoops st.code) i.op := by
    rw [hcode, openLoops_append]
    rfl
  refine ⟨hnumbered, ?_, ?_, hopen ▸ hloops, fun f hf => ?_, fun f hf => ?_⟩
  · rw [hcode]
    exact atEach_append.2 ⟨h.reads, atEach_cons.2 ⟨hreads, atEach_nil⟩⟩
  · rw [hcode]
    exact atEach_append.2 ⟨h.ends, atEach_cons.2 ⟨hends, atEach_nil⟩⟩
  · rcases hframes f hf with hold | ⟨hnew, -⟩
    · exact (h.resolved f hold).mono hle hnumbered
    · exact hnew
  · rcases hframes f hf with hold | ⟨-, hne⟩
    · exact h.carried f hold
    · exact hne

/-- An instruction that leaves the loops as they are. -/
theorem append_inner (h : st.Sound) {i : Instr} (hcode : st'.code = st.code ++ [i])
    (hframes : st'.frames = st.frames) (hnumbered : st'.Numbered)
    (hreads : i.ReadsIntroduced st.code) (hinner : i.op.isDelimiter = false) : st'.Sound := by
  have hends := (Instr.of_not_delimiter hinner st.code).1
  refine h.append hcode hnumbered hreads hends ?_ fun f hf => .inl (hframes ▸ hf)
  rw [OpenLoop.after_of_not_delimiter hinner, h.loops, hframes]

/-- An instruction that leaves the loops as they are and yields nothing. -/
theorem grows_inner (h : st.Sound) {i : Instr} (hcode : st'.code = st.code ++ [i])
    (hframes : st'.frames = st.frames) (hnumbered : st'.Numbered)
    (hreads : i.ReadsIntroduced st.code) (hinner : i.op.isDelimiter = false)
    (hyield : i.isYield = false) : st.Grows st' [] := by
  have hgrows := (h.append_inner hcode hframes hnumbered hreads hinner).grows hcode hyield
  rwa [(Instr.of_not_delimiter hinner st.code).2] at hgrows

theorem emit (h : st.Sound) {op : Op} {span : Span} (hplain : op.isPlain = true)
    (hinner : op.isDelimiter = false) (hyield : (⟨none, op, span⟩ : Instr).isYield = false)
    (hreads : Instr.ReadsIntroduced st.code ⟨none, op, span⟩) :
    st.Grows (st.emit none op span) [] :=
  h.grows_inner rfl rfl (h.numbered.emit hplain span) hreads hinner hyield

theorem value (h : st.Sound) {op : Op} {span : Span} (hplain : op.isPlain = true)
    (hinner : op.isDelimiter = false)
    (hyield : (⟨some st.counter.nextReg.1, op, span⟩ : Instr).isYield = false)
    (hreads : Instr.ReadsIntroduced st.code ⟨some st.counter.nextReg.1, op, span⟩) :
    st.Grows (st.value op span).2 [] :=
  h.grows_inner rfl rfl (h.numbered.value hplain span) hreads hinner hyield

theorem declareAccumulator (h : st.Sound) (op : String) (identity : Literal) (dtype : DType)
    (span : Span) : st.Grows (st.declareAccumulator op identity dtype span).2 [] :=
  h.grows_inner rfl rfl (h.numbered.declareAccumulator op identity dtype span)
    ⟨List.forall_mem_nil _, List.forall_mem_nil _⟩ rfl rfl

/-- The walk along a path ends at what the path leads to. -/
theorem walk (h : st.Sound) {base : Reg} {path : FieldPath} (hbase : st.Resolves base path)
    (dtype : Option DType) (span : Span) (keys : FieldPath) :
    st.Grows (st.walk base dtype span keys).2 [] ∧
      (st.walk base dtype span keys).2.Resolves (st.walk base dtype span keys).1
        (path ++ keys) := by
  have hload {st : Emission} (h : st.Sound) {base : Reg} {path : FieldPath}
      (hbase : st.Resolves base path) (key : String) (dtype : Option DType) :
      st.Grows (st.value (.loadField base key dtype) span).2 [] ∧
        (st.value (.loadField base key dtype) span).2.Resolves st.counter.nextReg.1
          (path ++ [key]) := by
    refine ⟨h.value rfl rfl rfl ⟨List.forall_mem_singleton.2 hbase.exists_defs, ?_⟩, ?_⟩
    · exact List.forall_mem_nil _
    · have hcode : (st.value (.loadField base key dtype) span).2.code =
          st.code ++ [⟨some st.counter.nextReg.1, .loadField base key dtype, span⟩] := rfl
      obtain ⟨hops, hfollow, rfl⟩ := Option.map_eq_some_iff.1 hbase
      rw [Resolves, hcode, List.reverse_concat, LoopCode.follow?_loadField, hfollow]
      simp [Hop.key?]
  induction keys generalizing st base path with
  | nil =>
    rw [List.append_nil]
    exact ⟨h.refl, hbase⟩
  | cons key keys ih =>
    cases keys with
    | nil => exact hload h hbase key dtype
    | cons next keys =>
      obtain ⟨hgrows, hresolves⟩ := hload h hbase key none
      obtain ⟨hrest, hlast⟩ := ih hgrows.sound hresolves
      rw [List.append_assoc] at hlast
      exact ⟨hgrows.trans hrest, hlast⟩

theorem loadInput (h : st.Sound) (key : String) (span : Span) :
    st.Grows (st.value (.loadInput key) span).2 [] ∧
      (st.value (.loadInput key) span).2.Resolves st.counter.nextReg.1 [key] := by
  refine ⟨h.value rfl rfl rfl ⟨List.forall_mem_nil _, List.forall_mem_nil _⟩, ?_⟩
  have hcode : (st.value (.loadInput key) span).2.code =
      st.code ++ [⟨some st.counter.nextReg.1, .loadInput key, span⟩] := rfl
  rw [Resolves, hcode, List.reverse_concat, LoopCode.follow?_loadInput]
  rfl

/-- A loop over what a carrier leads to. -/
theorem openLoop (h : st.Sound) {collection : Reg} {carrier : FieldPath}
    (hcollection : st.Resolves collection carrier) (hne : carrier ≠ []) (logical : Axes)
    (axis : Axis) (span : Span) :
    st.Grows (st.openLoop logical axis carrier collection span) [(axis, collection)] := by
  have hnumbered := h.numbered.openLoop logical axis carrier collection span
  have hcode : (st.openLoop logical axis carrier collection span).code = st.code ++
      [⟨none, .loopStart axis collection st.counter.nextReg.1 st.counter.nextReg.2.nextReg.1
        st.counter.nextReg.2.nextReg.2.nextLoop.1, span⟩] := rfl
  refine Sound.grows (h.append hcode hnumbered
    ⟨List.forall_mem_singleton.2 hcollection.exists_defs, List.forall_mem_nil _⟩
    (fun id hid => nomatch hid) ?_ fun f hf => ?_) hcode rfl
  · exact congrArg (_ :: ·) h.loops
  · rcases List.mem_cons.1 hf with rfl | hold
    · refine .inr ⟨?_, hne⟩
      obtain ⟨hops, hfollow, rfl⟩ := Option.map_eq_some_iff.1 hcollection
      rw [Resolves, hcode, List.reverse_concat]
      refine Option.map_eq_some_iff.2
        ⟨_, (LoopCode.follow?_element ..).trans (congrArg _ hfollow), ?_⟩
      simp [Hop.key?, List.filterMap_cons]
    · exact .inl hold

theorem closeLoops (h : st.Sound) (span : Span) (n : Nat) : st.Grows (st.closeLoops span n) [] := by
  induction n generalizing st with
  | zero => exact h.refl
  | succ n ih =>
    have hclose : st.Grows (st.closeLoop span) [] := by
      have hnumbered : (st.closeLoop span).Numbered := h.numbered.closeLoops span 1
      unfold closeLoop at hnumbered ⊢
      cases hframes : st.frames with
      | nil => exact h.refl
      | cons f fs =>
        have hloops := h.loops
        rw [hframes] at hnumbered hloops
        obtain ⟨l, around, hopen, hl, haround⟩ := List.map_eq_cons_iff.1 hloops
        refine Sound.grows (i := ⟨none, .loopEnd f.id, span⟩) (h.append rfl hnumbered
          ⟨List.forall_mem_nil _, List.forall_mem_nil _⟩ (fun id hid => ?_) ?_ fun g hg => ?_) rfl
          rfl
        · cases hid
          exact ⟨l, around, hopen, hl⟩
        · rw [hopen]
          exact haround
        · exact .inl (hframes ▸ List.mem_cons_of_mem _ hg)
    exact hclose.trans (ih hclose.sound)

/-- The floor plays no part. -/
theorem setFloor (h : st.Sound) (floor : Nat) : st.Grows { st with floor := floor } [] :=
  ⟨⟨h.numbered, h.reads, h.ends, h.loops, h.resolved, h.carried⟩, List.prefix_refl _,
    (List.append_nil _).symm, fun _ hi _ => hi⟩

end Sound
end Emission
end LoopNest
