import LoopNest.Proofs.Inlining.Site
import LoopNest.Proofs.Lowering.Numbering
import LoopNest.Proofs.Succession

/-! Single definition. Lowering numbers what it introduces in order. Inlining keeps the names of a
declaration and takes new ones for what it carries over, so it introduces no name twice where the
declarations introduce none twice, whatever else is wrong with them. -/
namespace LoopNest

theorem le_foldl_max {α : Type} (number : α → Nat) (l : List α) (n : Nat) :
    n ≤ l.foldl (fun n a => max n (number a + 1)) n ∧
      ∀ a ∈ l, number a < l.foldl (fun n a => max n (number a + 1)) n := by
  induction l generalizing n with
  | nil => exact ⟨Nat.le_refl n, fun a ha => nomatch ha⟩
  | cons b l ih =>
    obtain ⟨hle, hlt⟩ := ih (max n (number b + 1))
    rw [List.foldl_cons]
    exact ⟨by omega, List.forall_mem_cons.2 ⟨by omega, hlt⟩⟩

namespace CodeCounter

/-- The counter past some code is past all names of the code. -/
theorem reg_lt_past {is : List Instr} : ∀ r ∈ is.flatMap Instr.defs, r.index < (past is).reg :=
  (le_foldl_max Reg.index _ 0).2

theorem loop_lt_past {is : List Instr} :
    ∀ id ∈ is.flatMap Instr.starts, id.index < (past is).loop := by
  have hpast : (past is).loop =
      (is.flatMap Instr.starts).foldl (fun n id => max n (id.index + 1)) 0 := by
    rw [List.foldl_flatMap]
    change is.foldl _ 0 = is.foldl _ 0
    congr 1
    funext n i
    rcases i with ⟨_, op, _⟩
    cases op <;> rfl
  rw [hpast]
  exact (le_foldl_max LoopId.index _ 0).2

theorem acc_lt_past {is : List Instr} :
    ∀ a ∈ is.flatMap Instr.declares, a.index < (past is).acc := by
  intro a ha
  refine (le_foldl_max AccId.index _ 0).2 a (List.mem_filterMap.2 ?_)
  obtain ⟨⟨result, op, span⟩, hi, hdeclares⟩ := List.mem_flatMap.1 ha
  refine ⟨⟨result, op, span⟩, hi, ?_⟩
  cases op with
  | declareAccumulator acc op identity dtype =>
    rw [List.mem_singleton.1 hdeclares]
    rfl
  | _ => cases hdeclares

end CodeCounter

/-- Numbers of which some are kept and the others are new. -/
structure Mixed (numbers kept : List Nat) (next : Nat) : Prop where
  nodup : numbers.Nodup
  origin : ∀ n ∈ numbers, n ∈ kept ∨ next ≤ n

namespace Mixed

variable {numbers kept : List Nat} {next : Nat}

theorem keep (h : Mixed numbers kept next) {first : List Nat} (hn : (first ++ kept).Nodup)
    (hold : ∀ n ∈ first, n < next) : Mixed (first ++ numbers) (first ++ kept) next := by
  refine ⟨List.nodup_append.2 ⟨hn.of_append_left, h.nodup, ?_⟩, fun n hmem => ?_⟩
  · intro a ha b hb hab
    subst hab
    rcases h.origin a hb with hkept | hnew
    · exact (List.nodup_append.1 hn).2.2 a ha a hkept rfl
    · exact Nat.lt_irrefl _ (Nat.lt_of_lt_of_le (hold a ha) hnew)
  · rcases List.mem_append.1 hmem with hmem | hmem
    · exact .inl (List.mem_append_left _ hmem)
    · exact (h.origin n hmem).imp_left (List.mem_append_right _)

theorem splice {next' : Nat} (h : Mixed numbers kept next') {new : List Nat}
    (hn : Drawn new next next') (hold : ∀ n ∈ kept, n < next) :
    Mixed (new ++ numbers) kept next := by
  refine ⟨List.nodup_append.2 ⟨hn.nodup, h.nodup, ?_⟩, fun n hmem => ?_⟩
  · intro a ha b hb hab
    subst hab
    obtain ⟨hlo, hhi⟩ := hn.bounds a ha
    rcases h.origin a hb with hkept | hnew
    · exact Nat.lt_irrefl _ (Nat.lt_of_lt_of_le (hold a hkept) hlo)
    · exact Nat.lt_irrefl _ (Nat.lt_of_lt_of_le hhi hnew)
  · rcases List.mem_append.1 hmem with hmem | hmem
    · exact .inr (hn.bounds n hmem).1
    · exact (h.origin n hmem).imp_right (Nat.le_trans hn.le)

end Mixed

namespace Inlining

theorem pruneLoads_sublist (value : Reg) (is : List Instr) : (pruneLoads value is).Sublist is := by
  unfold pruneLoads
  induction is with
  | nil => exact .slnil
  | cons i is ih =>
    rw [List.foldr_cons, keepLive]
    split
    · exact ih.cons i
    · exact ih.cons_cons i

/-- The names that a splice introduces are new, and each is introduced once. -/
theorem introduces_splice {callee : LoopCode} (hd : Distinct callee.instrs)
    {context : List OpenLoop} (hcontext : context ⊆ callee.instrs.filterMap Instr.loop?)
    (site : List OpenLoop) (c : CodeCounter) :
    Introduces (splice callee context site c).code c (splice callee context site c).counter := by
  have hcode (value : Reg) :=
    (introduces_payload hd hcontext site c).sublist (pruneLoads_sublist value _)
  rw [splice]
  dsimp only
  split
  · exact hcode _
  · exact ⟨(hcode _).regs.mono (Nat.le_succ _), (hcode _).loops, (hcode _).accs⟩

/-- A name has one code, and the code introduces no name twice. -/
def Single (done : List LoopCode) : Prop :=
  ∀ name callee, done.find? (fun c => c.name == name) = some callee →
    done.reverse.find? (fun c => c.name == name) = some callee ∧ Distinct callee.instrs

variable {done : List LoopCode}

theorem Finished.single {env : Lowering.Env} {known : String → Option StampedExpr}
    (h : Finished env known done) : Single done := by
  intro name callee hfind
  obtain ⟨hlast, n, body, -, -, -, hd⟩ := h name callee hfind
  exact ⟨hlast, hd⟩

theorem find?_reverse (hn : (done.map LoopCode.name).Nodup) (name : String) :
    (done.reverse.find? fun c => c.name == name) = done.find? fun c => c.name == name :=
  (find?_title_perm (List.reverse_perm done).symm hn name).symm

theorem single_of_nodup (hn : (done.map LoopCode.name).Nodup)
    (hd : ∀ c ∈ done, Distinct c.instrs) : Single done := by
  intro name callee hfind
  exact ⟨find?_reverse hn name ▸ hfind, hd callee (List.mem_of_find?_eq_some hfind)⟩

theorem exists_of_replacement? {s : Site} {i : Instr} {r : Reg} {p : Splice}
    (h : s.replacement? done i = some (r, p)) : ∃ name, s.splice? done name = some p := by
  rcases i with ⟨result, op, span⟩
  cases op with
  | loadDeclaration name axes dtype =>
    cases result with
    | none => cases h
    | some q =>
      obtain ⟨p', hp, heq⟩ := Option.map_eq_some_iff.1 h
      cases heq
      exact ⟨name, hp⟩
  | _ => cases h

theorem Site.introduces_of_splice? (hdone : Single done) {s : Site} {name : String} {p : Splice}
    (h : s.splice? done name = some p) : Introduces p.code s.counter p.counter := by
  obtain ⟨callee, hfind⟩ := exists_find?_of_splice? h
  obtain ⟨hlast, hd⟩ := hdone name callee hfind
  rw [splice?_of_find? hfind hlast] at h
  split at h
  · cases h
    refine introduces_splice hd (fun l hl => ?_) _ _
    have hsub := List.takeWhile_sublist (l := callee.instrs) fun i => !i.isYield
    exact (hsub.filterMap _).subset (openLoops_subset _ (List.mem_reverse.1 hl))
  · cases h

/-- Inlined code has the names of the code, apart from loads that were replaced, and new ones. -/
theorem Site.mixed_inline (hdone : Single done) {α : Type} {names : Instr → List α}
    {number : α → Nat} {count : CodeCounter → Nat}
    (hkeep : ∀ i f, names { i with op := i.op.mapInputs f } = names i)
    (hnew : ∀ is c c', Introduces is c c' →
      Drawn ((is.flatMap names).map number) (count c) (count c'))
    (s : Site) (is : List Instr) (hn : ((is.flatMap names).map number).Nodup)
    (hold : ∀ k ∈ (is.flatMap names).map number, k < count s.counter) :
    Mixed (((s.inline done is).flatMap names).map number) ((is.flatMap names).map number)
      (count s.counter) := by
  induction is generalizing s with
  | nil => exact ⟨List.nodup_nil, fun n hmem => nomatch hmem⟩
  | cons i is ih =>
    rw [List.flatMap_cons, List.map_append] at hn hold ⊢
    obtain ⟨hfirst, hrest⟩ := List.forall_mem_append.1 hold
    cases hr : s.replacement? done i with
    | none =>
      rw [Site.inline_cons hr, List.flatMap_cons, List.map_append, hkeep]
      exact (ih { s with loops := OpenLoop.after s.loops i.op } hn.of_append_right hrest).keep hn
        hfirst
    | some rp =>
      obtain ⟨r, p⟩ := rp
      obtain ⟨name, hp⟩ := exists_of_replacement? hr
      have hdrawn := hnew _ _ _ (Site.introduces_of_splice? hdone hp)
      rw [Site.inline, hr]
      simp only [List.flatMap_append, List.map_append]
      have := ih ⟨p.counter, (r, p.value) :: s.values, s.loops⟩ hn.of_append_right
        fun k hk => Nat.lt_of_lt_of_le (hrest k hk) hdrawn.le
      have := this.splice hdrawn hrest
      exact ⟨this.nodup, fun k hk => (this.origin k hk).imp_left (List.mem_append_right _)⟩

theorem distinct_inlineCode (hdone : Single done) {c : LoopCode} (hd : Distinct c.instrs) :
    Distinct (inlineCode done c).instrs := by
  have hmixed {α : Type} {names : Instr → List α} {number : α → Nat} (count : CodeCounter → Nat)
      (hkeep : ∀ i f, names { i with op := i.op.mapInputs f } = names i)
      (hnew : ∀ is c c', Introduces is c c' →
        Drawn ((is.flatMap names).map number) (count c) (count c'))
      (hn : ((c.instrs.flatMap names).map number).Nodup)
      (hold : ∀ a ∈ c.instrs.flatMap names, number a < count (.past c.instrs)) :
      ((inlineCode done c).instrs.flatMap names).Nodup := by
    refine List.Nodup.of_map number (Site.mixed_inline hdone hkeep hnew ⟨.past c.instrs, [], []⟩
      c.instrs hn fun k hk => ?_).nodup
    obtain ⟨a, ha, rfl⟩ := List.mem_map.1 hk
    exact hold a ha
  refine ⟨hmixed CodeCounter.reg (fun i f => ?_) (fun _ _ _ h => h.regs)
      (hd.regs.map fun ⟨_⟩ ⟨_⟩ h => congrArg Reg.mk h) CodeCounter.reg_lt_past,
    hmixed CodeCounter.loop (fun i f => ?_) (fun _ _ _ h => h.loops)
      (hd.loops.map fun ⟨_⟩ ⟨_⟩ h => congrArg LoopId.mk h) CodeCounter.loop_lt_past,
    hmixed CodeCounter.acc (fun i f => ?_) (fun _ _ _ h => h.accs)
      (hd.accs.map fun ⟨_⟩ ⟨_⟩ h => congrArg AccId.mk h) CodeCounter.acc_lt_past⟩
  all_goals
    rcases i with ⟨_, op, _⟩
    cases op <;> rfl

/-- Inlining into one declaration after the other introduces no name twice. -/
theorem distinct_inlineFrom {cs : List LoopCode} (hn : ((done ++ cs).map LoopCode.name).Nodup)
    (hdone : ∀ c ∈ done, Distinct c.instrs) (hcs : ∀ c ∈ cs, Distinct c.instrs) :
    ∀ c ∈ inlineFrom done cs, Distinct c.instrs := by
  induction cs generalizing done with
  | nil => exact fun c hc => nomatch hc
  | cons c cs ih =>
    obtain ⟨hc, hcs⟩ := List.forall_mem_cons.1 hcs
    have hold : (done.map LoopCode.name).Nodup := by
      rw [List.map_append] at hn
      exact hn.of_append_left
    have hc' := distinct_inlineCode (single_of_nodup hold hdone) hc
    refine List.forall_mem_cons.2 ⟨hc', ih ?_ ?_ hcs⟩
    · rw [List.append_cons, List.map_append, List.map_append] at hn
      rw [List.map_append, List.map_append]
      exact hn
    · exact List.forall_mem_append.2 ⟨hdone, List.forall_mem_singleton.2 hc'⟩

end Inlining

/-- Names are numbered by where they are introduced. -/
def InOrder (numbers : List Nat) : Prop := numbers = List.range numbers.length

theorem Consecutive.inOrder {l : List Nat} {hi : Nat} (h : Consecutive l 0 hi) : InOrder l := by
  rw [InOrder, List.range_eq_range']
  exact h.range

/-- Single definition is established and preserved. Lowering numbers registers, loops and
accumulators from zero in the order in which they are introduced, and inlining introduces no name
twice into code that has distinct names. -/
theorem lowering_and_inlining_define_once :
    (∀ d carriers registry c, LoopCode.ofDecl d carriers registry = .ok c →
      InOrder ((c.instrs.flatMap Instr.defs).map Reg.index) ∧
      InOrder ((c.instrs.flatMap Instr.starts).map LoopId.index) ∧
      InOrder ((c.instrs.flatMap Instr.declares).map AccId.index) ∧
      Distinct c.instrs) ∧
    ∀ m : LoopModule, (m.decls.map LoopCode.name).Nodup → (∀ c ∈ m.decls, Distinct c.instrs) →
      ∀ c ∈ m.inline.decls, Distinct c.instrs := by
  refine ⟨fun d carriers registry c h => ?_, fun m hn hd => ?_⟩
  · obtain ⟨last, hlast⟩ := LoopCode.counts_ofDecl h
    exact ⟨hlast.regs.inOrder, hlast.loops.inOrder, hlast.accs.inOrder, LoopCode.distinct_ofDecl h⟩
  · have hnone : ∀ c ∈ ([] : List LoopCode), Distinct c.instrs := fun c hc => nomatch hc
    have hnames : (([] ++ m.decls).map LoopCode.name).Nodup := hn
    exact Inlining.distinct_inlineFrom hnames hnone hd

/-- The sum of a column. -/
def columnSum : StampedDecl :=
  let mark (axes : Axes) : Mark := ⟨⟨0⟩, ⟨0⟩, 0, ⟨axes, .integer⟩, none, .zero⟩
  ⟨"total", .value, .reduce (mark []) "sum" [⟨"row"⟩] (.input (mark [⟨"row"⟩]) ["rows", "cell"]),
    ⟨[], .integer⟩, 0, .zero⟩

/-- Code that loads the sum twice. -/
def sumTwice : LoopCode where
  name := "twice"
  kind := .value
  axes := []
  dtype := .integer
  instrs := [⟨some ⟨0⟩, .loadDeclaration "total" [] .integer, .zero⟩,
    ⟨some ⟨1⟩, .loadDeclaration "total" [] .integer, .zero⟩,
    ⟨some ⟨2⟩, .kernelCall "add" [⟨0⟩, ⟨1⟩] .integer, .zero⟩, ⟨none, .yield ⟨2⟩, .zero⟩]

theorem columnSum_defines_once :
    ∃ carriers c, CarrierMap.ofModule ⟨[columnSum]⟩ = .ok carriers ∧
      LoopCode.ofDecl columnSum carriers .builtins = .ok c ∧
      InOrder ((c.instrs.flatMap Instr.defs).map Reg.index) ∧
      InOrder ((c.instrs.flatMap Instr.starts).map LoopId.index) ∧
      InOrder ((c.instrs.flatMap Instr.declares).map AccId.index) ∧
      ∀ c' ∈ (LoopModule.mk [c, sumTwice]).inline.decls, Distinct c'.instrs := by
  obtain ⟨hlower, hinline⟩ := lowering_and_inlining_define_once
  obtain ⟨carriers, c, hm, hc, hname⟩ :
      ∃ carriers c, CarrierMap.ofModule ⟨[columnSum]⟩ = .ok carriers ∧
        LoopCode.ofDecl columnSum carriers .builtins = .ok c ∧ c.name = "total" :=
    ⟨_, _, rfl, rfl, rfl⟩
  obtain ⟨hregs, hloops, haccs, hd⟩ := hlower _ _ _ _ hc
  refine ⟨carriers, c, hm, hc, hregs, hloops, haccs, hinline _ ?_ ?_⟩
  · rw [List.map_cons, hname]
    decide
  · have htwice : Distinct sumTwice.instrs := ⟨by decide, by decide, by decide⟩
    exact List.forall_mem_cons.2 ⟨hd, List.forall_mem_singleton.2 htwice⟩

end LoopNest
