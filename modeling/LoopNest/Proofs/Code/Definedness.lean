import LoopNest.Proofs.Code.Acceptance
import LoopNest.Proofs.Code.Evaluation

/-! What runs of accepted code read. The check is one pass over the text, and a run skips the loops
whose collections are empty. So a name that is read has a value, unless all that introduces it was
skipped: it stands in loops that ended before and had nothing to go over. -/
namespace LoopNest

/-- The registers that an instruction assigns. An operation without a value assigns none, whatever
register is named for its result. -/
def Instr.assigns (i : Instr) : List Reg :=
  match i.op with
  | .declareAccumulator .. | .accumulate .. | .loopEnd _ | .yield _ => []
  | .loopStart _ _ element index _ => [element, index]
  | _ => i.result.toList

/-- An instruction starts a loop that has nothing to go over. -/
def Instr.StartsEmpty (i : Instr) (s : Machine) : Prop :=
  ∃ axis collection element index id,
    i.op = .loopStart axis collection element index id ∧ (s.read collection).items = []

/-- An instruction as a run comes to it: the code before it, and the state that it finds. -/
structure Moment where
  before : List Instr
  instr : Instr
  state : Machine

namespace Block

variable {w : World}

/-- One pass through the body of a loop. -/
def pass (w : World) (body : Block) (axis : Axis) (element index : Reg) (s : Machine)
    (x : Json × Nat) : Option Machine :=
  (body.run w (s.enter axis element index x.1 x.2)).map Machine.leave

/-- A run of a block from a state comes to a moment. The block stands behind other code. -/
inductive Visits (w : World) : Block → List Instr → Machine → Moment → Prop
  | here (i : Instr) (rest : Block) (before : List Instr) (s : Machine) :
    Visits w (.step i rest) before s ⟨before, i, s⟩
  | next {i : Instr} {rest : Block} {before : List Instr} {s s' : Machine} {x : Moment}
    (hstep : s.step w i = some s') (hx : Visits w rest (before ++ [i]) s' x) :
    Visits w (.step i rest) before s x
  | start (start : Instr) (body : Block) (stop : Instr) (rest : Block) (before : List Instr)
    (s : Machine) : Visits w (.loop start body stop rest) before s ⟨before, start, s⟩
  | inside {start stop : Instr} {body rest : Block} {before : List Instr} {s s' : Machine}
    {x : Moment} {axis : Axis} {collection element index : Reg} {id : LoopId}
    {passed left : List (Json × Nat)} {item : Json × Nat}
    (hstart : start.op = .loopStart axis collection element index id)
    (hitems : (s.read collection).items.zipIdx = passed ++ item :: left)
    (hpassed : passed.foldlM (pass w body axis element index) s = some s')
    (hx : Visits w body (before ++ [start]) (s'.enter axis element index item.1 item.2) x) :
    Visits w (.loop start body stop rest) before s x
  | past {start stop : Instr} {body rest : Block} {before : List Instr} {s s' : Machine}
    {x : Moment} (hloop : (loop start body stop .done).run w s = some s')
    (hx : Visits w rest (before ++ (loop start body stop .done).instrs) s' x) :
    Visits w (.loop start body stop rest) before s x

end Block

/-- An instruction between others was skipped: a loop around it, or one that it starts itself, has
ended since and was found to have nothing to go over. -/
def Skipped (visited : Moment → Prop) (pre : List Instr) (d : Instr) (post : List Instr) : Prop :=
  ∃ outer start inner, pre ++ [d] = outer ++ start :: inner ∧
    HeldOpen (openLoops (outer ++ [start])) (outer ++ [start]) inner ∧
    ¬ HeldOpen (openLoops (outer ++ [start])) (outer ++ [start]) (inner ++ post) ∧
    ∃ s, visited ⟨outer, start, s⟩ ∧ start.StartsEmpty s

theorem Skipped.append {visited : Moment → Prop} {pre post : List Instr} {d : Instr}
    (h : Skipped visited pre d post) (more : List Instr) :
    Skipped visited pre d (post ++ more) := by
  obtain ⟨outer, start, inner, hsplit, hheld, hended, hempty⟩ := h
  refine ⟨outer, start, inner, hsplit, hheld, fun hall => hended ?_, hempty⟩
  rw [← List.append_assoc] at hall
  exact (heldOpen_append.1 hall).1

/-- Names that the execution of instructions brings into a state, where they stay. -/
structure Brings {α : Type} (w : World) (names : Instr → List α) (has : Machine → α → Prop) :
    Prop where
  step : ∀ {s s' : Machine} {i a}, s.step w i = some s' → a ∈ names i → has s' a
  keep : ∀ {s s' : Machine} {i a}, s.step w i = some s' → has s a → has s' a
  enter : ∀ {s : Machine} {start : Instr} {axis collection element index id v k a},
    start.op = .loopStart axis collection element index id → a ∈ names start →
      has (s.enter axis element index v k) a
  keep_enter : ∀ {s : Machine} {axis element index v k a}, has s a →
    has (s.enter axis element index v k) a
  leave : ∀ {s : Machine} {a}, has s a → has s.leave a
  stop : ∀ {i : Instr} {id}, i.op = .loopEnd id → names i = []

/-- What the code before a point introduces is there, or was skipped. -/
def Present {α : Type} (names : Instr → List α) (has : Machine → α → Prop)
    (visited : Moment → Prop) (before : List Instr) (s : Machine) : Prop :=
  ∀ pre d post a, before = pre ++ d :: post → a ∈ names d → has s a ∨ Skipped visited pre d post

namespace Present

variable {α : Type} {names : Instr → List α} {has : Machine → α → Prop} {visited : Moment → Prop}
  {before : List Instr} {s s' : Machine}

theorem nil : Present names has visited [] s := by
  intro pre d post a h
  cases pre <;> cases h

theorem mono (h : Present names has visited before s) (hs : ∀ a, has s a → has s' a) :
    Present names has visited before s' := fun pre d post a hb ha =>
  (h pre d post a hb ha).imp_left (hs a)

/-- More code comes, of which each instruction brings its names or is skipped. -/
theorem append {is : List Instr} (h : Present names has visited before s)
    (his : ∀ pre d post a, is = pre ++ d :: post → a ∈ names d →
      has s a ∨ Skipped visited (before ++ pre) d post) :
    Present names has visited (before ++ is) s := by
  intro pre d post a hsplit ha
  rcases List.append_eq_append_iff.1 hsplit with ⟨mid, rfl, hmid⟩ | ⟨mid, hbefore, hmid⟩
  · exact his mid d post a hmid ha
  · cases mid with
    | nil =>
      rw [List.append_nil] at hbefore
      subst hbefore
      have hnow := his [] d post a hmid.symm ha
      rwa [List.append_nil] at hnow
    | cons d' mid =>
      obtain ⟨rfl, rfl⟩ := List.cons.inj hmid
      exact (h pre d mid a hbefore ha).imp_right fun hskip => hskip.append is

theorem append_singleton {i : Instr} (h : Present names has visited before s)
    (hi : ∀ a ∈ names i, has s a) : Present names has visited (before ++ [i]) s := by
  refine h.append fun pre d post a hsplit ha => .inl (hi a ?_)
  cases pre with
  | nil =>
    cases hsplit
    exact ha
  | cons j pre =>
    cases pre <;> cases hsplit

end Present

/-- A fold that succeeds keeps what each of its steps keeps. -/
theorem foldlM_keeps {σ ι : Type} {f : σ → ι → Option σ} {P : σ → Prop} {l : List ι} {a a' : σ}
    (h : l.foldlM f a = some a') (step : ∀ a x a', P a → f a x = some a' → P a') (ha : P a) :
    P a' := by
  induction l generalizing a with
  | nil =>
    cases h
    exact ha
  | cons x l ih =>
    rw [List.foldlM_cons] at h
    obtain ⟨a₁, hx, hl⟩ := Option.bind_eq_some_iff.1 h
    exact ih hl (step a x a₁ ha hx)

namespace Block

section Keeping

variable {α : Type} {w : World} {names : Instr → List α} {has : Machine → α → Prop}

/-- What is there stays there. -/
theorem run_keeps (hb : Brings w names has) {b : Block} {s s' : Machine} (h : b.run w s = some s')
    {a : α} (ha : has s a) : has s' a := by
  induction b generalizing s s' with
  | done =>
    cases h
    exact ha
  | step i rest ih =>
    obtain ⟨s₁, hstep, hrest⟩ := Option.bind_eq_some_iff.1 h
    exact ih hrest (hb.keep hstep ha)
  | loop start body stop rest ihbody ih =>
    rw [run] at h
    split at h
    next axis collection element index id hstart =>
      obtain ⟨s₁, hloop, hrest⟩ := Option.bind_eq_some_iff.1 h
      refine ih hrest (foldlM_keeps (P := (has · a)) hloop (fun s x s' hs hpass => ?_) ha)
      obtain ⟨s₂, hbody, rfl⟩ := Option.map_eq_some_iff.1 hpass
      exact hb.leave (ihbody hbody (hb.keep_enter hs))
    next => cases h

theorem passes_keep (hb : Brings w names has) {body : Block} {axis : Axis} {element index : Reg}
    {items : List (Json × Nat)} {s s' : Machine}
    (h : items.foldlM (pass w body axis element index) s = some s') {a : α} (ha : has s a) :
    has s' a := by
  refine foldlM_keeps (P := (has · a)) h (fun s x s' hs hpass => ?_) ha
  obtain ⟨s₁, hbody, rfl⟩ := Option.map_eq_some_iff.1 hpass
  exact hb.leave (run_keeps hb hbody (hb.keep_enter hs))

end Keeping

/-- A loop without elements skips its start and all of its body. -/
theorem skipped_of_empty {visited : Moment → Prop} {start stop : Instr} {body : Block}
    {before : List Instr} {s : Machine} (hpair : start.Pairs stop) (hbody : body.Regular)
    (hvisited : visited ⟨before, start, s⟩) (hempty : start.StartsEmpty s) {pre post : List Instr}
    {d : Instr} (hsplit : start :: body.instrs = pre ++ d :: post) :
    Skipped visited (before ++ pre) d (post ++ [stop]) := by
  obtain ⟨id, hstart, hstop⟩ := hpair
  obtain ⟨inner, hinner, hrest⟩ : ∃ inner, pre ++ [d] = start :: inner ∧
      inner ++ post = body.instrs := by
    cases pre with
    | nil =>
      obtain ⟨rfl, rfl⟩ := List.cons.inj hsplit
      exact ⟨[], rfl, rfl⟩
    | cons j pre =>
      obtain ⟨rfl, hpre⟩ := List.cons.inj hsplit
      exact ⟨pre ++ [d], rfl, by rw [hpre, List.append_assoc]; rfl⟩
  obtain ⟨l, -, hopen, -, hclosed⟩ := openLoops_loop before hstart hstop hbody
  have hheld := hbody.heldOpen (List.suffix_refl (openLoops (before ++ [start])))
  rw [← hrest] at hheld
  refine ⟨before, start, inner, by rw [List.append_assoc, hinner], (heldOpen_append.1 hheld).1,
    fun hall => ?_, s, hvisited, hempty⟩
  have hend := hall (inner ++ (post ++ [stop])) (List.prefix_refl _)
  rw [← List.append_assoc inner, hrest, ← List.append_assoc, hclosed, hopen] at hend
  have hlength := hend.length_le
  rw [List.length_cons] at hlength
  omega

section Presence

variable {α : Type} {w : World} {names : Instr → List α} {has : Machine → α → Prop}
  {visited : Moment → Prop}

/-- After a loop that went through its body, what it introduces is there as the last pass left it;
after one that had nothing to go over, it was skipped. -/
theorem present_of_loop (hb : Brings w names has) {start stop : Instr} {body : Block}
    {before : List Instr} {s s' : Machine} (hpair : start.Pairs stop) (hbody : body.Regular)
    (hvisited : visited ⟨before, start, s⟩)
    (hpass : ∀ {axis collection element index id passed item left s₁ s₂},
      start.op = .loopStart axis collection element index id →
      (s.read collection).items.zipIdx = passed ++ item :: left →
      passed.foldlM (pass w body axis element index) s = some s₁ →
      body.run w (s₁.enter axis element index item.1 item.2) = some s₂ →
      Present names has visited (before ++ [start] ++ body.instrs) s₂)
    (hs : Present names has visited before s) (h : (loop start body stop .done).run w s = some s') :
    Present names has visited (before ++ (loop start body stop .done).instrs) s' := by
  have hstop : names stop = [] := by
    obtain ⟨id, -, hstop⟩ := hpair
    exact hb.stop hstop
  rw [run] at h
  split at h
  next axis collection element index id hstart =>
    obtain ⟨s₁, hloop, hdone⟩ := Option.bind_eq_some_iff.1 h
    cases hdone
    -- the last pass alone tells what is there after the loop
    rcases List.eq_nil_or_concat (s.read collection).items.zipIdx with hnil | ⟨passed, item, hitems⟩
    · rw [hnil] at hloop
      cases hloop
      have hempty : start.StartsEmpty s :=
        ⟨axis, collection, element, index, id, hstart, List.zipIdx_eq_nil_iff.1 hnil⟩
      refine hs.append fun pre d post a hsplit ha => .inr ?_
      rw [instrs_loop, instrs_done, ← List.cons_append] at hsplit
      rcases List.eq_nil_or_concat post with rfl | ⟨post', last, rfl⟩
      · obtain ⟨-, hlast⟩ := List.append_inj' hsplit rfl
        cases hlast
        rw [hstop] at ha
        cases ha
      · rw [List.concat_eq_append, ← List.cons_append, ← List.append_assoc] at hsplit
        obtain ⟨hinner, hlast⟩ := List.append_inj' hsplit rfl
        cases hlast
        rw [List.concat_eq_append]
        exact skipped_of_empty hpair hbody hvisited hempty hinner
    · rw [List.concat_eq_append] at hitems
      rw [hitems, List.foldlM_append] at hloop
      obtain ⟨s₁, hpassed, hlast⟩ := Option.bind_eq_some_iff.1 hloop
      rw [List.foldlM_cons] at hlast
      obtain ⟨_, hlast, hend⟩ := Option.bind_eq_some_iff.1 hlast
      cases hend
      obtain ⟨s₂, hrun, rfl⟩ := Option.map_eq_some_iff.1 hlast
      have hafter := (hpass hstart hitems hpassed hrun).mono fun a => hb.leave
      have hall := hafter.append_singleton (i := stop) fun a ha => by
        rw [hstop] at ha
        cases ha
      simpa using hall
  next => cases h

/-- All along a run, what the code before introduces is there or was skipped. -/
theorem present_of_visits (hb : Brings w names has) {b : Block} {before : List Instr} {s : Machine}
    (hr : b.Regular) (hv : ∀ x, b.Visits w before s x → visited x)
    (hs : Present names has visited before s) :
    (∀ x, b.Visits w before s x → Present names has visited x.before x.state) ∧
      ∀ s', b.run w s = some s' → Present names has visited (before ++ b.instrs) s' := by
  induction b generalizing before s with
  | done =>
    refine ⟨fun x hx => (nomatch hx), fun s' h => ?_⟩
    cases h
    rwa [instrs_done, List.append_nil]
  | step i rest ih =>
    have hnext {s' : Machine} (hstep : s.step w i = some s') :=
      ih hr.2 (fun x hx => hv x (.next hstep hx))
        ((hs.mono fun a => hb.keep hstep).append_singleton fun a => hb.step hstep)
    refine ⟨fun x hx => ?_, fun s' h => ?_⟩
    · cases hx with
      | here => exact hs
      | next hstep hx => exact (hnext hstep).1 x hx
    · obtain ⟨s₁, hstep, hrest⟩ := Option.bind_eq_some_iff.1 h
      rw [instrs_step, List.append_cons]
      exact (hnext hstep).2 s' hrest
  | loop start body stop rest ihbody ih =>
    obtain ⟨hpair, hbody, hrest⟩ := hr
    -- a pass through the body starts with all that was there before the loop, and its registers
    have hinside {axis collection element index id passed item left s₁}
        (hstart : start.op = .loopStart axis collection element index id)
        (hitems : (s.read collection).items.zipIdx = passed ++ item :: left)
        (hpassed : passed.foldlM (pass w body axis element index) s = some s₁) :=
      ihbody hbody (fun x hx => hv x (.inside hstart hitems hpassed hx))
        ((hs.mono fun a ha => hb.keep_enter (passes_keep hb hpassed ha)).append_singleton
          fun a => hb.enter hstart)
    have hpast {s' : Machine} (hloop : (loop start body stop .done).run w s = some s') :=
      ih hrest (fun x hx => hv x (.past hloop hx))
        (present_of_loop hb hpair hbody (hv _ (.start start body stop rest before s))
          (fun hstart hitems hpassed hrun => (hinside hstart hitems hpassed).2 _ hrun) hs hloop)
    refine ⟨fun x hx => ?_, fun s' h => ?_⟩
    · cases hx with
      | start => exact hs
      | inside hstart hitems hpassed hx => exact (hinside hstart hitems hpassed).1 x hx
      | past hloop hx => exact (hpast hloop).1 x hx
    · have hsplit : (loop start body stop .done ++ rest).run w s = some s' := h
      rw [run_append] at hsplit
      obtain ⟨s₁, hloop, hrun⟩ := Option.bind_eq_some_iff.1 hsplit
      have hall := (hpast hloop).2 s' hrun
      simpa using hall

end Presence

/-- The instruction of a moment stands behind the code before it. -/
theorem Visits.exists_eq_append {w : World} {b : Block} {before : List Instr} {s : Machine}
    {x : Moment} (h : b.Visits w before s x) :
    ∃ post, before ++ b.instrs = x.before ++ x.instr :: post := by
  induction h with
  | here i rest => exact ⟨rest.instrs, rfl⟩
  | @next i rest before s s' x hstep hx ih =>
    rwa [instrs_step, List.append_cons]
  | start start body stop rest => exact ⟨body.instrs ++ stop :: rest.instrs, rfl⟩
  | @inside start stop body rest before s s' x axis collection element index id passed left item
      hstart hitems hpassed hx ih =>
    obtain ⟨post, hpost⟩ := ih
    refine ⟨post ++ stop :: rest.instrs, ?_⟩
    rw [instrs_loop, List.append_cons, ← List.append_assoc, hpost, List.append_assoc]
    rfl
  | @past start stop body rest before s s' x hloop hx ih =>
    obtain ⟨post, hpost⟩ := ih
    refine ⟨post, ?_⟩
    rw [← hpost]
    simp

/-- A fold that fails, fails at one of its elements. -/
theorem exists_of_foldlM_eq_none {σ ι : Type} {f : σ → ι → Option σ} {l : List ι} {a : σ}
    (h : l.foldlM f a = none) : ∃ done x left a', l = done ++ x :: left ∧
      done.foldlM f a = some a' ∧ f a' x = none := by
  induction l generalizing a with
  | nil => cases h
  | cons x l ih =>
    rw [List.foldlM_cons] at h
    cases hx : f a x with
    | none => exact ⟨[], x, l, a, rfl, rfl, hx⟩
    | some a₁ =>
      rw [hx] at h
      obtain ⟨done, y, left, a', rfl, hdone, hy⟩ := ih h
      refine ⟨x :: done, y, left, a', rfl, ?_, hy⟩
      rw [List.foldlM_cons, hx]
      exact hdone

/-- A run that does not come to its end has come to an instruction that is stuck. -/
theorem exists_stuck_of_run_eq_none {w : World} {b : Block} {before : List Instr} {s : Machine}
    (hr : b.Regular) (h : b.run w s = none) :
    ∃ x, b.Visits w before s x ∧ x.instr.op.isDelimiter = false ∧
      x.state.step w x.instr = none := by
  induction b generalizing before s with
  | done => cases h
  | step i rest ih =>
    cases hstep : s.step w i with
    | none => exact ⟨⟨before, i, s⟩, .here i rest before s, hr.1, hstep⟩
    | some s₁ =>
      rw [run, hstep] at h
      obtain ⟨x, hx, hstuck⟩ := ih hr.2 h
      exact ⟨x, .next hstep hx, hstuck⟩
  | loop start body stop rest ihbody ih =>
    obtain ⟨⟨id, hstart, -⟩, hbody, hrest⟩ := hr
    rcases start with ⟨result, op, span⟩
    cases op with
    | loopStart axis collection element index id =>
      cases hloop : (s.read collection).items.zipIdx.foldlM (pass w body axis element index) s with
      | none =>
        obtain ⟨passed, item, left, s₁, hitems, hpassed, hitem⟩ := exists_of_foldlM_eq_none hloop
        obtain ⟨x, hx, hstuck⟩ := ihbody hbody (Option.map_eq_none_iff.1 hitem)
        exact ⟨x, .inside rfl hitems hpassed hx, hstuck⟩
      | some s₁ =>
        have hrun : (rest.run w s₁) = none := by
          rw [← h]
          exact (congrArg (·.bind (rest.run w)) hloop).symm
        obtain ⟨x, hx, hstuck⟩ := ih hrest hrun
        exact ⟨x, .past (congrArg (·.bind (done.run w)) hloop) hx, hstuck⟩
    | _ => cases hstart

end Block

/-- What an instruction can do to a state. -/
theorem Machine.step_cases {w : World} {s s' : Machine} {i : Instr} (h : s.step w i = some s') :
    (∃ v, s' = s.put i.result v ∧ i.assigns = i.result.toList ∧ i.declares = []) ∨
    (∃ acc v, s' = { s with accs := Function.update s.accs acc (some v) } ∧ i.assigns = [] ∧
      i.declares ⊆ [acc]) ∨
    ∃ ys, s' = { s with yields := ys } ∧ i.assigns = [] ∧ i.declares = [] := by
  rcases i with ⟨result, op, span⟩
  cases op with
  | loadDeclaration name axes dtype =>
    obtain ⟨indices, -, h⟩ := Option.bind_eq_some_iff.1 h
    obtain ⟨v, -, h⟩ := Option.bind_eq_some_iff.1 h
    cases h
    exact .inl ⟨v, rfl, rfl, rfl⟩
  | loadAccumulator acc dtype =>
    obtain ⟨v, -, h⟩ := Option.bind_eq_some_iff.1 h
    cases h
    exact .inl ⟨v, rfl, rfl, rfl⟩
  | declareAccumulator acc op identity dtype =>
    cases h
    exact .inr (.inl ⟨acc, _, rfl, rfl, List.Subset.refl _⟩)
  | accumulate acc op value =>
    obtain ⟨total, -, h⟩ := Option.bind_eq_some_iff.1 h
    cases h
    exact .inr (.inl ⟨acc, _, rfl, rfl, List.nil_subset _⟩)
  | yield value =>
    cases h
    exact .inr (.inr ⟨_, rfl, rfl, rfl⟩)
  | loopStart | loopEnd => cases h
  | _ =>
    cases h
    exact .inl ⟨_, rfl, rfl, rfl⟩

/-- What has a value keeps one under an update to a value. -/
theorem update_some_ne_none {α β : Type} [DecidableEq α] {f : α → Option β} {a b : α} (v : β)
    (h : f b ≠ none) : Function.update f a (some v) b ≠ none := by
  by_cases hab : b = a
  · rw [hab, Function.update_self]
    exact Option.some_ne_none v
  · rwa [Function.update_of_ne hab]

theorem Instr.declares_of_loopStart {i : Instr} {axis : Axis} {collection element index : Reg}
    {id : LoopId} (h : i.op = .loopStart axis collection element index id) : i.declares = [] := by
  rw [declares, h]

/-- Execution assigns registers, and none becomes unassigned. -/
theorem brings_assigns (w : World) : Brings w Instr.assigns fun s r => s.regs r ≠ none where
  step {s s' i r} h hr := by
    obtain ⟨v, rfl, hi, -⟩ | ⟨acc, v, rfl, hi, -⟩ | ⟨ys, rfl, hi, -⟩ := Machine.step_cases h
    · rw [hi, Option.mem_toList] at hr
      rw [hr]
      simp [Machine.put]
    · rw [hi] at hr
      cases hr
    · rw [hi] at hr
      cases hr
  keep {s s' i r} h hr := by
    obtain ⟨v, rfl, -⟩ | ⟨acc, v, rfl, -⟩ | ⟨ys, rfl, -⟩ := Machine.step_cases h
    · cases i.result with
      | none => exact hr
      | some q => exact update_some_ne_none v hr
    · exact hr
    · exact hr
  enter {s start axis collection element index id v k r} h hr := by
    have hr' : r ∈ [element, index] := by
      rwa [Instr.assigns, h] at hr
    rcases List.mem_pair.1 hr' with rfl | rfl
    · exact update_some_ne_none _ (by rw [Function.update_self]; exact Option.some_ne_none v)
    · simp [Machine.enter]
  keep_enter hr := update_some_ne_none _ (update_some_ne_none _ hr)
  leave hr := hr
  stop h := by rw [Instr.assigns, h]

/-- Execution declares accumulators, and none becomes undeclared. -/
theorem brings_declares (w : World) : Brings w Instr.declares fun s acc => s.accs acc ≠ none where
  step {s s' i acc} h ha := by
    obtain ⟨v, rfl, -, hi⟩ | ⟨acc', v, rfl, -, hi⟩ | ⟨ys, rfl, -, hi⟩ := Machine.step_cases h
    · rw [hi] at ha
      cases ha
    · rw [List.mem_singleton.1 (hi ha)]
      simp
    · rw [hi] at ha
      cases ha
  keep {s s' i acc} h ha := by
    obtain ⟨v, rfl, -⟩ | ⟨acc', v, rfl, -⟩ | ⟨ys, rfl, -⟩ := Machine.step_cases h
    · cases i.result <;> exact ha
    · exact update_some_ne_none v ha
    · exact ha
  enter h ha := by
    rw [Instr.declares_of_loopStart h] at ha
    cases ha
  keep_enter ha := ha
  leave ha := ha
  stop h := by rw [Instr.declares, h]

namespace LoopCode

/-- Accepted code runs to its end or to an instruction that is stuck. Whatever an instruction reads
on the way is introduced by the code before it. It has a value, unless all that introduces it was
skipped, or only names the register and assigns nothing. -/
theorem read_assigned_or_skipped {c : LoopCode} (hc : c.check = .ok ()) (w : World) :
    ∃ b, Block.ofInstrs? c.instrs = some b ∧
      ((∃ s, b.run w .start = some s) ∨ ∃ x, b.Visits w [] .start x ∧
        x.instr.op.isDelimiter = false ∧ x.state.step w x.instr = none) ∧
      ∀ x, b.Visits w [] .start x → (∃ post, c.instrs = x.before ++ x.instr :: post) ∧
        (∀ r ∈ x.instr.op.inputs, (∃ d ∈ x.before, r ∈ d.defs) ∧
          (x.state.regs r = none → ∀ pre d post, x.before = pre ++ d :: post → r ∈ d.defs →
            r ∉ d.assigns ∨ Skipped (b.Visits w [] .start) pre d post)) ∧
        ∀ acc ∈ x.instr.uses, (∃ d ∈ x.before, acc ∈ d.declares) ∧
          (x.state.accs acc = none → ∀ pre d post, x.before = pre ++ d :: post →
            acc ∈ d.declares → Skipped (b.Visits w [] .start) pre d post) := by
  have hinstrs : checkInstrs c.instrs = .ok () := check_eq_ok.1 hc
  obtain ⟨hreads, -, -⟩ := of_checkInstrs hinstrs
  obtain ⟨b, hb, hregular, hlist⟩ := Block.exists_of_checkInstrs hinstrs
  refine ⟨b, hb, ?_, fun x hx => ?_⟩
  · cases hrun : b.run w .start with
    | none => exact .inr (Block.exists_stuck_of_run_eq_none hregular hrun)
    | some s => exact .inl ⟨s, rfl⟩
  · obtain ⟨post, hpost⟩ := hx.exists_eq_append
    rw [List.nil_append, hlist] at hpost
    obtain ⟨hregs, haccs⟩ := hreads x.before x.instr post hpost
    rw [List.nil_append] at hregs haccs
    have hassigned :=
      (Block.present_of_visits (brings_assigns w) hregular (fun _ h => h) .nil).1 x hx
    have hdeclared :=
      (Block.present_of_visits (brings_declares w) hregular (fun _ h => h) .nil).1 x hx
    refine ⟨⟨post, hpost⟩, fun r hr => ⟨hregs r hr, fun hnone pre d post hsplit _ => ?_⟩,
      fun acc ha => ⟨haccs acc ha, fun hnone pre d post hsplit hd => ?_⟩⟩
    · by_cases hd : r ∈ d.assigns
      · exact .inr ((hassigned pre d post r hsplit hd).resolve_left (absurd hnone))
      · exact .inl hd
    · exact (hdeclared pre d post acc hsplit hd).resolve_left (absurd hnone)

/-- Code that yields, after a loop, what was assigned in it. -/
def yieldAfterLoop : LoopCode where
  name := "d"
  kind := .value
  axes := []
  dtype := .integer
  instrs := [
    ⟨some ⟨0⟩, .loadInput "items", .zero⟩,
    ⟨none, .loopStart ⟨"items"⟩ ⟨0⟩ ⟨1⟩ ⟨2⟩ ⟨0⟩, .zero⟩,
    ⟨some ⟨3⟩, .constant (.integer 1) .integer, .zero⟩,
    ⟨none, .loopEnd ⟨0⟩, .zero⟩,
    ⟨none, .yield ⟨3⟩, .zero⟩]

/-- A world without input data. -/
def barrenWorld : World where
  interp := ⟨fun _ _ => .null, fun _ => .null, fun _ => false, fun _ total _ => total⟩
  data := .null
  known := []

theorem yieldAfterLoop_read_skipped : yieldAfterLoop.check = .ok () ∧
    ∃ b, Block.ofInstrs? yieldAfterLoop.instrs = some b ∧
      ∀ x, b.Visits barrenWorld [] .start x → ∀ r ∈ x.instr.op.inputs, x.state.regs r = none →
        ∀ pre d post, x.before = pre ++ d :: post → r ∈ d.defs →
          r ∉ d.assigns ∨ Skipped (b.Visits barrenWorld [] .start) pre d post := by
  have hcheck : yieldAfterLoop.check = .ok () := by decide
  obtain ⟨b, hb, -, hreads⟩ := read_assigned_or_skipped hcheck barrenWorld
  exact ⟨hcheck, b, hb, fun x hx r hr => ((hreads x hx).2.1 r hr).2⟩

/-- Accepted code can read what nothing has assigned. -/
theorem yieldAfterLoop_reads_unassigned : yieldAfterLoop.check = .ok () ∧
    ∃ b, Block.ofInstrs? yieldAfterLoop.instrs = some b ∧
      ∃ x, b.Visits barrenWorld [] .start x ∧ ∃ r ∈ x.instr.op.inputs, x.state.regs r = none :=
  ⟨by decide, _, rfl, _, .next rfl (.past rfl (.here _ _ _ _)), ⟨3⟩, List.mem_cons_self, rfl⟩

end LoopCode
end LoopNest
