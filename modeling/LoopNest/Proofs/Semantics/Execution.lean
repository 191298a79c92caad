import LoopNest.Proofs.Lowering.Scoping
import LoopNest.Proofs.Semantics.Meaning

/-! Runs of emitted code. The code for expressions computes their values, changes no register and no
accumulator but its own, and yields nothing. -/
namespace LoopNest

namespace Machine

/-- Nothing changes but some registers and accumulators; and the yields. -/
structure OnlyChanges (regs : List Reg) (accs : List AccId) (s s' : Machine) : Prop where
  regs : ∀ r, r ∉ regs → s'.regs r = s.regs r
  accs : ∀ a, a ∉ accs → s'.accs a = s.accs a
  loops : s'.loops = s.loops

namespace OnlyChanges

variable {regs regs' : List Reg} {accs accs' : List AccId} {s s' s'' : Machine}

theorem refl (regs : List Reg) (accs : List AccId) (s : Machine) : OnlyChanges regs accs s s :=
  ⟨fun _ _ => rfl, fun _ _ => rfl, rfl⟩

theorem trans (h : OnlyChanges regs accs s s') (h' : OnlyChanges regs accs s' s'') :
    OnlyChanges regs accs s s'' :=
  ⟨fun r hr => (h'.regs r hr).trans (h.regs r hr), fun a ha => (h'.accs a ha).trans (h.accs a ha),
    h'.loops.trans h.loops⟩

theorem mono (h : OnlyChanges regs accs s s') (hr : regs ⊆ regs') (ha : accs ⊆ accs') :
    OnlyChanges regs' accs' s s' :=
  ⟨fun r hn => h.regs r fun hm => hn (hr hm), fun a hn => h.accs a fun hm => hn (ha hm), h.loops⟩

end OnlyChanges

theorem onlyChanges_put (s : Machine) (r : Reg) (v : Json) :
    OnlyChanges [r] [] s (s.put (some r) v) := by
  refine ⟨fun q hq => ?_, fun _ _ => rfl, rfl⟩
  exact Function.update_of_ne (List.ne_of_not_mem_cons hq) _ _

@[simp] theorem regs_put_self (s : Machine) (r : Reg) (v : Json) :
    (s.put (some r) v).regs r = some v :=
  Function.update_self _ _ _

end Machine

/-- The registers and the loops of a machine hold the elements that the code expects. -/
structure Holds (s : Machine) (places : List (Place Reg)) (cells : List Cell) : Prop where
  values : List.Forall₂ (fun p c => p.logical = c.logical ∧ p.carrier = c.carrier ∧
    s.regs p.element = some c.element.value) places cells
  loops : s.loops = Cell.loops cells

namespace Holds

variable {s s' : Machine} {places : List (Place Reg)} {cells : List Cell}

theorem of_onlyChanges (h : Holds s places cells) {regs : List Reg} {accs : List AccId}
    (hc : s.OnlyChanges regs accs s') (hr : ∀ r ∈ Place.elements places, r ∉ regs) :
    Holds s' places cells := by
  refine ⟨?_, hc.loops.trans h.loops⟩
  have hv := h.values
  clear h
  induction hv with
  | nil => exact .nil
  | @cons p c places cells hpc _ ih =>
    refine .cons ⟨hpc.1, hpc.2.1, ?_⟩ (ih fun r hm => hr r (List.mem_cons_of_mem _ hm))
    rw [hc.regs _ (hr _ List.mem_cons_self)]
    exact hpc.2.2

theorem logicalOf_eq (h : Holds s places cells) :
    Place.logicalOf places = Place.logicalOf cells := by
  have hv := h.values
  cases hv with
  | nil => rfl
  | cons hpc _ => exact hpc.1

theorem length_eq (h : Holds s places cells) : places.length = cells.length := h.values.length_eq

/-- The code finds the loop that the data is found in. -/
theorem find? (h : Holds s places cells) (test : FieldPath → Bool) :
    (Place.find? places test = none ∧ Place.find? cells test = none) ∨
      ∃ p c, Place.find? places test = some p ∧ Place.find? cells test = some c ∧
        p.carrier = c.carrier ∧ s.regs p.element = some c.element.value := by
  have hv := h.values
  clear h
  induction hv with
  | nil => exact .inl ⟨rfl, rfl⟩
  | @cons p c places cells hpc _ ih =>
    by_cases ht : test p.carrier = true
    · refine .inr ⟨p, c, List.find?_cons_of_pos ht, List.find?_cons_of_pos ?_, hpc.2⟩
      rwa [← hpc.2.1]
    · have hp : Place.find? (p :: places) test = Place.find? places test :=
        List.find?_cons_of_neg ht
      have hc : Place.find? (c :: cells) test = Place.find? cells test :=
        List.find?_cons_of_neg (by rwa [← hpc.2.1])
      rw [hp, hc]
      exact ih

end Holds

/-- A run of a block that yields nothing and changes only what the block defines. -/
structure Computes (w : World) (b : Block) (s s' : Machine) : Prop where
  run : b.run w s = some s'
  changes : s.OnlyChanges b.defs b.declares s'
  yields : s'.yields = s.yields

namespace Computes

variable {w : World} {a b : Block} {s s' s'' : Machine}

theorem done (w : World) (s : Machine) : Computes w .done s s := ⟨rfl, .refl _ _ s, rfl⟩

theorem append (h : Computes w a s s') (h' : Computes w b s' s'') : Computes w (a ++ b) s s'' := by
  refine ⟨?_, ?_, h'.yields.trans h.yields⟩
  · rw [Block.run_append, h.run]
    exact h'.run
  · simp only [Block.defs, Block.declares, Block.instrs_append, List.flatMap_append]
    exact (h.changes.mono (List.subset_append_left _ _) (List.subset_append_left _ _)).trans
      (h'.changes.mono (List.subset_append_right _ _) (List.subset_append_right _ _))

/-- An instruction that only sets its result. -/
theorem put {op : Op} {span : Span} {r : Reg} {v : Json}
    (h : s.step w ⟨some r, op, span⟩ = some (s.put (some r) v)) :
    Computes w (.step ⟨some r, op, span⟩ .done) s (s.put (some r) v) := by
  refine ⟨Block.run_step h, (s.onlyChanges_put r v).mono ?_ (List.nil_subset _), rfl⟩
  simp [Block.defs, Instr.defs]

end Computes

/-- Loads one field after the other. -/
theorem Walks.run {dtype : Option DType} {base r : Reg} {keys : FieldPath} {is : List Instr}
    (h : Walks dtype base keys is r) {w : World} {s : Machine} {v : Json}
    (hv : s.regs base = some v) :
    ∃ s', Computes w (.steps is .done) s s' ∧ s'.accs = s.accs ∧
      s'.regs r = some (v.fields keys) := by
  induction h generalizing s v with
  | stay => exact ⟨s, .done w s, rfl, hv⟩
  | @load base r last key keys is span _ ih =>
    have hstep : s.step w ⟨some r, .loadField base key (if keys = [] then dtype else none), span⟩ =
        some (s.put (some r) (v.field key)) := by
      simp only [Machine.step, Machine.read, hv, Option.getD_some]
    obtain ⟨s', hs', haccs, hr⟩ := ih (s.regs_put_self r (v.field key))
    exact ⟨s', (Computes.put hstep).append hs', haccs, hr⟩

/-- Loads what a path leads to. -/
theorem Loads.run {dtype : Option DType} {places : List (Place Reg)} {test : FieldPath → Bool}
    {path : FieldPath} {is : List Instr} {r : Reg} (h : Loads dtype places test path is r)
    {w : World} {s : Machine} {cells : List Cell} (hs : Holds s places cells) :
    ∃ s', Computes w (.steps is .done) s s' ∧ s'.accs = s.accs ∧
      s'.regs r = some (Cell.lookup w.data cells test path) := by
  unfold Cell.lookup
  cases h with
  | @place p path is r hfind hw =>
    rcases hs.find? test with ⟨hnone, -⟩ | ⟨p', c, hp, hc, hcarrier, hv⟩
    · rw [hfind] at hnone
      cases hnone
    · rw [hfind] at hp
      cases hp
      rw [hcarrier] at hw
      rw [hc]
      exact hw.run hv
  | @root key keys is base r span hfind hw =>
    rcases hs.find? test with ⟨-, hnone⟩ | ⟨p', c, hp, -⟩
    · have hstep : s.step w ⟨some base, .loadInput key, span⟩ =
          some (s.put (some base) (w.data.field key)) := rfl
      obtain ⟨s', hs', haccs, hr⟩ := hw.run (w := w) (s.regs_put_self base (w.data.field key))
      rw [hnone]
      exact ⟨s', (Computes.put hstep).append hs', haccs, hr⟩
    · rw [hfind] at hp
      cases hp

theorem Machine.regs_enter_of_ne (s : Machine) (axis : Axis) {element index r : Reg} (v : Json)
    (i : Nat) (he : r ≠ element) (hi : r ≠ index) :
    (s.enter axis element index v i).regs r = s.regs r := by
  change Function.update (Function.update s.regs element _) index _ r = _
  rw [Function.update_of_ne hi, Function.update_of_ne he]

/-- What an iteration changes, apart from the loop that it enters and leaves. -/
theorem Machine.OnlyChanges.leave {s s' : Machine} {axis : Axis} {element index : Reg} {v : Json}
    {i : Nat} {regs : List Reg} {accs : List AccId}
    (h : (s.enter axis element index v i).OnlyChanges regs accs s') :
    s.OnlyChanges (element :: index :: regs) accs s'.leave := by
  refine ⟨fun r hr => ?_, h.accs, ?_⟩
  · simp only [List.mem_cons, not_or] at hr
    exact (h.regs r hr.2.2).trans (s.regs_enter_of_ne axis v i hr.1 hr.2.1)
  · change s'.loops.tail = s.loops
    rw [h.loops]
    rfl

/-- A loop runs its body for all elements of its collection, one after the other. What is seen of
the machine depends on its accumulators and its yields. -/
theorem Block.run_loop (o : Opening) {w : World} {body : Block} {accs : List AccId} {β : Type}
    {view : Machine → β → Prop} {g : β → Json × Nat → β}
    (hview : ∀ s s' x, s'.accs = s.accs → s'.yields = s.yields → view s x → view s' x)
    {s : Machine} {x : β}
    (hbody : ∀ p ∈ (s.read o.collection).items.zipIdx, ∀ t y,
      s.OnlyChanges (o.element :: o.index :: body.defs) accs t → view t y →
      ∃ t', body.run w (t.enter o.axis o.element o.index p.1 p.2) = some t' ∧
        (t.enter o.axis o.element o.index p.1 p.2).OnlyChanges body.defs accs t' ∧ view t' (g y p))
    (hx : view s x) :
    ∃ s', (Block.loop o.start body o.stop .done).run w s = some s' ∧
      s.OnlyChanges (o.element :: o.index :: body.defs) accs s' ∧
      view s' ((s.read o.collection).items.zipIdx.foldl g x) := by
  have hstep : ∀ p ∈ (s.read o.collection).items.zipIdx, ∀ t y,
      s.OnlyChanges (o.element :: o.index :: body.defs) accs t ∧ view t y →
      ∃ t', (body.run w (t.enter o.axis o.element o.index p.1 p.2)).map Machine.leave = some t' ∧
        s.OnlyChanges (o.element :: o.index :: body.defs) accs t' ∧ view t' (g y p) := by
    rintro p hp t y ⟨ht, hy⟩
    obtain ⟨t', hrun, hchanges, hy'⟩ := hbody p hp t y ht hy
    exact ⟨t'.leave, by rw [hrun]; rfl, ht.trans hchanges.leave, hview t' _ _ rfl rfl hy'⟩
  obtain ⟨s', hrun, hchanges, hx'⟩ := exists_foldlM_of_step _ hstep ⟨.refl _ _ s, hx⟩
  refine ⟨s', ?_, hchanges, hx'⟩
  simp only [Block.run, Opening.start, hrun, Option.bind_some]

/-- An iteration enters its loop with the element that the code inside expects. -/
theorem Holds.enter {s : Machine} {places : List (Place Reg)} {cells : List Cell}
    (h : Holds s places cells) (logical : Axes) (carrier : FieldPath) (axis : Axis) (v : Json)
    (i : Nat) {element index : Reg} (hne : element ≠ index)
    (hout : ∀ r ∈ Place.elements places, r ≠ element ∧ r ≠ index) :
    Holds (s.enter axis element index v i) (⟨logical, carrier, element⟩ :: places)
      (⟨logical, carrier, ⟨axis, i, v⟩⟩ :: cells) := by
  refine ⟨.cons ⟨rfl, rfl, ?_⟩ ?_, ?_⟩
  · change Function.update _ index _ element = _
    rw [Function.update_of_ne hne, Function.update_self]
  · have hv := h.values
    clear h
    induction hv with
    | nil => exact .nil
    | @cons p c places cells hpc _ ih =>
      refine .cons ⟨hpc.1, hpc.2.1, ?_⟩ (ih fun r hr => hout r (List.mem_cons_of_mem _ hr))
      obtain ⟨hne, hni⟩ := hout _ List.mem_cons_self
      rw [s.regs_enter_of_ne axis v i hne hni]
      exact hpc.2.2
  · change (axis, i) :: s.loops = _
    rw [h.loops]
    rfl

/-- Loops that are opened run the block inside for all that they reach, one after the other. -/
theorem Opens.run {carriers : CarrierMap} {places inner : List (Place Reg)} {axes rest : Axes}
    {os : List Opening} (h : Opens carriers places axes rest os inner) {w : World} {body : Block}
    {β : Type} (view : Machine → β → Prop) (f : β → List Cell → β) (accs : List AccId)
    (hview : ∀ s s' x, s'.accs = s.accs → s'.yields = s.yields → view s x → view s' x)
    {cells : List Cell} (hfresh : (Opening.wrap os body).Fresh places)
    (hbody : ∀ cells' ∈ Cell.reach carriers w.data cells axes rest, ∀ s x, Holds s inner cells' →
      view s x → ∃ s', body.run w s = some s' ∧ s.OnlyChanges body.defs accs s' ∧
        view s' (f x cells'))
    {s : Machine} {x : β} (hs : Holds s places cells) (hx : view s x) :
    ∃ s', (Opening.wrap os body).run w s = some s' ∧
      s.OnlyChanges (Opening.wrap os body).defs accs s' ∧
      view s' ((Cell.reach carriers w.data cells axes rest).foldl f x) := by
  induction h generalizing cells s x with
  | nil => exact hbody cells List.mem_cons_self s x hs hx
  | @cons places inner axes rest a carrier o os hc ha hl ho ih =>
    rw [Opening.wrap_cons] at hfresh ⊢
    obtain ⟨hinner, hne, houtside⟩ := hfresh.right.of_loop (axes ++ [a]) carrier
    obtain ⟨s₁, hload, haccs, hcoll⟩ := hl.run (w := w) hs
    have hs₁ := hs.of_onlyChanges hload.changes hfresh.left.outside
    have hreach : Cell.reach carriers w.data cells axes (a :: rest) =
        (s₁.read o.collection).items.zipIdx.flatMap fun p => Cell.reach carriers w.data
          (⟨axes ++ [a], carrier, ⟨a, p.2, p.1⟩⟩ :: cells) (axes ++ [a]) rest := by
      rw [Cell.reach, hc, Machine.read, hcoll]
      rfl
    have hiter : ∀ p ∈ (s₁.read o.collection).items.zipIdx, ∀ t y,
        s₁.OnlyChanges (o.element :: o.index :: (Opening.wrap os body).defs) accs t → view t y →
        ∃ t', (Opening.wrap os body).run w (t.enter o.axis o.element o.index p.1 p.2) = some t' ∧
          (t.enter o.axis o.element o.index p.1 p.2).OnlyChanges (Opening.wrap os body).defs accs
            t' ∧
          view t' ((Cell.reach carriers w.data (⟨axes ++ [a], carrier, ⟨a, p.2, p.1⟩⟩ :: cells)
            (axes ++ [a]) rest).foldl f y) := by
      intro p hp t y ht hy
      have hout : ∀ r ∈ Place.elements places, r ≠ o.element ∧ r ≠ o.index := fun r hr =>
        ⟨fun he => houtside r hr (he ▸ List.mem_cons_self),
          fun he => houtside r hr (he ▸ List.mem_cons_of_mem _ List.mem_cons_self)⟩
      have henter := (hs₁.of_onlyChanges ht houtside).enter (axes ++ [a]) carrier a p.1 p.2 hne hout
      rw [ha]
      refine ih hinner (fun cells' hmem => hbody cells' ?_) henter (hview t _ _ rfl rfl hy)
      rw [hreach]
      exact List.mem_flatMap.2 ⟨p, hp, hmem⟩
    obtain ⟨s', hrun, hchanges, hview'⟩ := Block.run_loop o hview hiter
      (hview _ _ _ haccs hload.yields hx)
    refine ⟨s', ?_, ?_, ?_⟩
    · rw [Block.run_append, hload.run]
      exact hrun
    · rw [Block.defs, Block.instrs_append, List.flatMap_append]
      have hbefore : s.OnlyChanges (Block.steps o.loads .done).defs accs s₁ :=
        ⟨hload.changes.regs, fun c _ => congrFun haccs c, hload.changes.loops⟩
      refine (hbefore.mono (List.subset_append_left _ _) (List.Subset.refl _)).trans
        (hchanges.mono ?_ (List.Subset.refl _))
      rw [← Block.defs_loop]
      exact List.subset_append_right _ _
    · rw [hreach, List.foldl_flatMap]
      exact hview'

end LoopNest
