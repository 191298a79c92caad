import LoopNest.Proofs.Carriers
import LoopNest.Proofs.Lowering.Soundness

/-! Lowering keeps emitted code sound and answers each of its queries by the path that is asked for,
whatever the stamps of expressions say. -/
namespace LoopNest

/-- A carrier has a key for each axis. -/
theorem Carrier.length_of_choose {m : CarrierMap} {all : List InputUse} (h : m.Records all)
    {axes : Axes} {e : StampedExpr} {path : FieldPath} (hc : choose axes e m = .ok path) :
    path.length = axes.length := by
  rw [choose] at hc
  split at hc
  · rename_i u hu
    cases hc
    have hlen := List.find?_some hu
    rw [decide_eq_true_eq] at hlen
    rw [List.length_take, Nat.min_eq_left hlen]
  · split at hc
    · rename_i path' hfind
      cases hc
      exact h.length_eq hfind
    · split at hc <;> cases hc

namespace Lowering

open Emission

variable {env : Env} {st st' st'' : Emission}

/-- A path is followed to its field. -/
theorem grows_of_follow (hst : st.Sound) {test : Frame → Bool} {path : FieldPath}
    {dtype : Option DType} {span : Span} {r : Reg} (htest : ∀ f, test f = true → f.carrier <+: path)
    (h : follow test path dtype span st = .ok (r, st')) :
    st.Grows st' [] ∧ st'.Resolves r path := by
  rcases follow_eq_ok h with ⟨f, hf, hwalk⟩ | ⟨root, keys, -, rfl, hwalk⟩
  · have hbase := hst.resolved f (List.mem_of_find?_eq_some hf)
    have hlast := hst.walk hbase dtype span (path.drop f.carrier.length)
    rwa [hwalk, List.prefix_iff_eq_append.1 (htest f (List.find?_some hf))] at hlast
  · obtain ⟨hload, hroot⟩ := hst.loadInput root span
    have hlast := hload.sound.walk hroot dtype span keys
    rw [hwalk] at hlast
    exact ⟨hload.trans hlast.1, hlast.2⟩

theorem grows_of_inputValue (hst : st.Sound) {path : FieldPath} {dtype : DType} {span : Span}
    {r : Reg} (h : inputValue path dtype span st = .ok (r, st')) :
    st.Grows st' [] ∧ st'.Resolves r path :=
  grows_of_follow hst (fun _ hf => (FieldPath.startsWith_iff _ _).1 hf) h

theorem grows_of_collection (hst : st.Sound) {carrier : FieldPath} {span : Span} {r : Reg}
    (h : collection carrier span st = .ok (r, st')) :
    st.Grows st' [] ∧ st'.Resolves r carrier :=
  grows_of_follow hst
    (fun _ hf => (FieldPath.startsWith_iff _ _).1 (Bool.and_eq_true_iff.1 hf).2) h

namespace Lookup

/-- The code before a query is sound, and a loop has axes. -/
structure Asked (a : Lookup) : Prop where
  sound : a.before.Sound
  axes : ∀ logical anchor, a.query = .loop logical anchor → logical ≠ []

/-- A query got its answer, within some code. -/
def Answered (env : Env) (code : List Instr) (a : Lookup) : Prop :=
  ∃ r st, a.query.answer env a.before = .ok (r, st) ∧ st.code <+: code

theorem Answered.mono {code code' : List Instr} {a : Lookup} (h : a.Answered env code)
    (hle : code <+: code') : a.Answered env code' := by
  obtain ⟨r, st, hanswer, hst⟩ := h
  exact ⟨r, st, hanswer, hst.trans hle⟩

end Lookup

/-- Some steps that succeed, with the lookups and the inputs on the way. -/
structure Done (env : Env) (st st' : Emission) (new : List Lookup) (uses : List InputUse) :
    Prop where
  grows : st.Grows st' (new.filterMap (Lookup.opening? env))
  answered : ∀ a ∈ new, a.Answered env st'.code
  uses : new.filterMap Lookup.use? = uses

theorem Done.trans {new new' : List Lookup} {uses uses' : List InputUse}
    (h : Done env st st' new uses) (h' : Done env st' st'' new' uses') :
    Done env st st'' (new ++ new') (uses ++ uses') := by
  refine ⟨?_, List.forall_mem_append.2 ⟨fun a ha => ?_, h'.answered⟩, ?_⟩
  · rw [List.filterMap_append]
    exact h.grows.trans h'.grows
  · exact (h.answered a ha).mono h'.grows.code
  · rw [List.filterMap_append, h.uses, h'.uses]

theorem Done.of_grows (h : st.Grows st' []) : Done env st st' [] [] :=
  ⟨h, List.forall_mem_nil _, rfl⟩

/-- A name is introduced in the code. -/
def Given {γ : Type} (names : Instr → List γ) (st : Emission) (a : γ) : Prop :=
  ∃ i ∈ st.code, a ∈ names i

theorem Done.given {γ : Type} {names : Instr → List γ} {a : γ} {new : List Lookup}
    {uses : List InputUse} (h : Done env st st' new uses) (ha : Given names st a) :
    Given names st' a := by
  obtain ⟨i, hi, ha⟩ := ha
  exact ⟨i, h.grows.code.subset hi, ha⟩

theorem done_input (hst : st.Sound) (m : Mark) (path : FieldPath) {r : Reg}
    (h : inputValue path m.stamp.dtype m.span st = .ok (r, st')) :
    Done env st st' [⟨.input m path, st⟩] [⟨path, m.stamp.axes, m.span⟩] ∧
      Given Instr.defs st' r := by
  obtain ⟨hgrows, hresolves⟩ := grows_of_inputValue hst h
  refine ⟨⟨hgrows, ?_, rfl⟩, hresolves.exists_defs⟩
  exact List.forall_mem_singleton.2 ⟨r, st', h, List.prefix_refl _⟩

theorem done_openLoop {all : List InputUse} (hm : env.carriers.Records all) (hst : st.Sound)
    {anchor : StampedExpr} {logical : Axes} (hne : logical ≠ [])
    (h : openLoop env anchor logical st = .ok ((), st')) :
    Done env st st' [⟨.loop logical anchor, st⟩] [] := by
  have haxis : logical.getLast? = some (logical.getLast hne) := List.getLast?_eq_some_getLast hne
  obtain ⟨carrier, c, st₁, hchoose, hcollection, rfl⟩ := openLoop_eq_ok haxis h
  have hanswer : Query.answer env (.loop logical anchor) st = .ok (c, st₁) := by
    refine StateT.bind_eq_ok.2 ⟨carrier, st, ?_, hcollection⟩
    rw [hchoose]
    rfl
  have hopening : Lookup.opening? env ⟨.loop logical anchor, st⟩ =
      some (logical.getLast hne, c) := by
    simp only [Lookup.opening?, haxis, hanswer]
    rfl
  have hcarrier : carrier ≠ [] := by
    rintro rfl
    exact hne (List.length_eq_zero_iff.1 (Carrier.length_of_choose hm hchoose).symm)
  obtain ⟨hgrows, hresolves⟩ := grows_of_collection hst hcollection
  have hopen := hgrows.sound.openLoop hresolves hcarrier logical (logical.getLast hne) anchor.span
  refine ⟨?_, List.forall_mem_singleton.2 ⟨c, st₁, hanswer, hopen.code⟩, rfl⟩
  rw [List.filterMap_cons_some hopening]
  exact hgrows.trans hopen

/-- Code stays sound, queries are asked from sound code and get their answers, and what is read is
introduced before. -/
def Law.soundness {all : List InputUse} (hm : env.carriers.Records all) : Law env where
  Between := Sound
  Asked := Lookup.Asked
  Does := Done env
  Known := Given Instr.defs
  Declared := Given Instr.declares
  refl h := .of_grows h.refl
  trans h h' := h.trans h'
  between h := h.grows.sound
  known h := h.given
  declared h := h.given
  value span h hop hregs haccs :=
    ⟨.of_grows (h.value hop.plain hop.inner hop.silent ⟨hregs, haccs⟩),
      _, List.mem_append_right _ List.mem_cons_self, List.mem_cons_self⟩
  emit span h hop hregs haccs :=
    .of_grows (h.emit hop.plain hop.inner hop.silent ⟨hregs, haccs⟩)
  declareAccumulator op start dtype span h :=
    ⟨.of_grows (h.declareAccumulator op start dtype span),
      _, List.mem_append_right _ List.mem_cons_self, List.mem_cons_self⟩
  closeLoops span n h := .of_grows (h.closeLoops span n)
  setFloor n h := .of_grows (h.setFloor n)
  input m path h := ⟨⟨h, fun _ _ hq => nomatch hq⟩, fun _ _ hr => done_input h m path hr⟩
  openLoop anchor logical h hne := by
    refine ⟨⟨h, fun _ _ hq => ?_⟩, fun _ hopen => done_openLoop hm h hne hopen⟩
    cases hq
    exact hne

end Lowering
end LoopNest
