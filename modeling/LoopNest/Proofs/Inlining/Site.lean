import LoopNest.Proofs.Inlining.Splice
import LoopNest.Proofs.Lowering.Trail

/-! Inlining into emitted code. Each piece of the code becomes code for the same expressions, and a
load that is replaced becomes code for the body that it refers to. Loops and loads of inputs stay as
they are. -/
namespace LoopNest

/-- Whether an operation loads the value of a declaration. -/
def Op.refers : Op → Bool
  | .loadDeclaration .. => true
  | _ => false

theorem Op.mapInputs_eq_self {op : Op} {f : Reg → Reg} (h : ∀ r ∈ op.inputs, f r = r) :
    op.mapInputs f = op := by
  have hmap {l : List Reg} (hl : ∀ r ∈ l, f r = r) : l.map f = l :=
    (List.map_congr_left hl).trans (List.map_id' l)
  cases op with
  | makeTuple elems dtype => exact congrArg (makeTuple · dtype) (hmap h)
  | kernelCall func args dtype => exact congrArg (kernelCall func · dtype) (hmap h)
  | select cond onTrue onFalse dtype =>
    rw [mapInputs, h cond (by simp [inputs]), h onTrue (by simp [inputs]),
      h onFalse (by simp [inputs])]
  | loadField base field dtype => rw [mapInputs, h base List.mem_cons_self]
  | accumulate acc op value | yield value => rw [mapInputs, h value List.mem_cons_self]
  | loopStart axis collection element index id => rw [mapInputs, h collection List.mem_cons_self]
  | _ => rfl

namespace Inlining

/-- Declarations that are done: a name has one code, and it is a nest for the body that is known. -/
def Finished (env : Lowering.Env) (known : String → Option StampedExpr) (done : List LoopCode) :
    Prop :=
  ∀ name callee, done.find? (fun c => c.name == name) = some callee →
    done.reverse.find? (fun c => c.name == name) = some callee ∧
      ∃ (n : Nest) (body : StampedExpr), known name = some body ∧ n.For env true known body ∧
        callee.instrs = n.tree.instrs ∧ Distinct callee.instrs

namespace Site

variable {env : Lowering.Env} {known : String → Option StampedExpr} {done : List LoopCode}
  {places : List (Place Reg)} {s s' s'' : Site}

/-- What takes the place of a load, where the name has one code. -/
theorem splice?_of_find? {name : String} {callee : LoopCode}
    (hfind : (done.find? fun c => c.name == name) = some callee)
    (hlast : (done.reverse.find? fun c => c.name == name) = some callee) :
    s.splice? done name =
      if callee.contextAtYield.map OpenLoop.axis = s.loops.reverse.map OpenLoop.axis then
        some (splice callee callee.contextAtYield s.loops.reverse s.counter)
      else none := by
  rw [splice?, hfind, hlast]

theorem exists_find?_of_splice? {name : String} {p : Splice} (h : s.splice? done name = some p) :
    ∃ callee, (done.find? fun c => c.name == name) = some callee := by
  rw [← Option.isSome_iff_exists, Option.isSome_iff_ne_none]
  intro hnone
  rw [splice?, hnone] at h
  cases h

/-- A splice is the code of a nest, relocated to the open loops. -/
theorem exists_of_splice? (hdone : Finished env known done)
    (hs : ∀ l ∈ s.loops, l.element.index < s.counter.reg) {name : String} {p : Splice}
    (h : s.splice? done name = some p) :
    ∃ (callee : LoopCode) (n : Nest) (body : StampedExpr) (ρ : Renaming), callee ∈ done ∧
      callee.instrs = n.tree.instrs ∧ known name = some body ∧ n.For env true known body ∧
      n.context.map OpenLoop.axis = s.loops.reverse.map OpenLoop.axis ∧
      n.Relocates s.loops.reverse s.counter ρ ∧
      p = ⟨(n.block.map ρ.instr).instrs, ρ.reg n.value, ρ.counter⟩ := by
  obtain ⟨callee, hfind⟩ := exists_find?_of_splice? h
  obtain ⟨hlast, n, body, hk, hn, hc, hd⟩ := hdone name callee hfind
  rw [splice?_of_find? hfind hlast, hn.contextAtYield_eq hc] at h
  split at h
  · rename_i haxes
    have hlen : n.context.length = s.loops.reverse.length := by
      simpa using congrArg List.length haxes
    rw [hc] at hd
    obtain ⟨ρ, hρ, hsplice⟩ := hn.splice_eq hd hc hlen (c := s.counter) fun l hl =>
      hs l (List.mem_reverse.1 hl)
    refine ⟨callee, n, body, ρ, List.mem_of_find?_eq_some hfind, hc, hk, hn, haxes, hρ, ?_⟩
    rw [hsplice] at h
    exact (Option.some.inj h).symm
  · cases h

/-- A site in front of code inside of open loops: the names of the code and of the loops are not
replaced, and are older than the next free ones. -/
structure Ready (s : Site) (places : List (Place Reg)) (b : Block) : Prop where
  loops : s.loops.map OpenLoop.element = Place.elements places
  fresh : b.Fresh places
  old : ∀ r, r ∈ Place.elements places ∨ r ∈ b.defs →
    r ∉ s.values.map Prod.fst ∧ r.index < s.counter.reg

/-- A site behind code: only names of the code are replaced. -/
structure Follows (s s' : Site) (defs : List Reg) : Prop where
  loops : s'.loops = s.loops
  counter : s.counter.reg ≤ s'.counter.reg
  values : ∃ new, s'.values = new ++ s.values ∧ ∀ r ∈ new.map Prod.fst, r ∈ defs

theorem reg_of_not_mem {r : Reg} (h : r ∉ s.values.map Prod.fst) : s.reg r = r := by
  have hnone : s.values.lookup r = none := by
    refine List.lookup_eq_none_iff.2 fun p hp => ?_
    have hne : r ≠ p.1 := fun he => h (he ▸ List.mem_map.2 ⟨p, hp, rfl⟩)
    simpa using hne
  rw [reg, hnone]
  rfl

namespace Follows

theorem refl (s : Site) (defs : List Reg) : Follows s s defs :=
  ⟨rfl, Nat.le_refl _, [], rfl, fun _ hr => nomatch hr⟩

theorem trans {a b : Block} (h : Follows s s' a.defs) (h' : Follows s' s'' b.defs) :
    Follows s s'' (a ++ b).defs := by
  obtain ⟨new, hnew, hin⟩ := h.values
  obtain ⟨new', hnew', hin'⟩ := h'.values
  refine ⟨h'.loops.trans h.loops, Nat.le_trans h.counter h'.counter, new' ++ new, ?_, ?_⟩
  · rw [hnew', hnew, List.append_assoc]
  · intro r hr
    rw [Block.defs, Block.instrs_append, List.flatMap_append]
    rw [List.map_append] at hr
    rcases List.mem_append.1 hr with hr | hr
    · exact List.mem_append_right _ (hin' r hr)
    · exact List.mem_append_left _ (hin r hr)

theorem reg_eq {defs : List Reg} (h : Follows s s' defs) {r : Reg} (hr : r ∉ defs) :
    s'.reg r = s.reg r := by
  obtain ⟨new, hnew, hin⟩ := h.values
  have hnone : new.lookup r = none := by
    refine List.lookup_eq_none_iff.2 fun p hp => ?_
    have hne : r ≠ p.1 := fun he => hr (he ▸ hin p.1 (List.mem_map.2 ⟨p, hp, rfl⟩))
    simpa using hne
  rw [reg, hnew, List.lookup_append, hnone, Option.none_or]
  rfl

end Follows

namespace Ready

variable {a b : Block}

theorem bounds (h : s.Ready places b) : ∀ l ∈ s.loops, l.element.index < s.counter.reg := by
  intro l hl
  refine (h.old l.element (.inl ?_)).2
  rw [← h.loops]
  exact List.mem_map.2 ⟨l, hl, rfl⟩

theorem reg_eq (h : s.Ready places b) {r : Reg} (hr : r ∈ Place.elements places ∨ r ∈ b.defs) :
    s.reg r = r :=
  reg_of_not_mem (h.old r hr).1

theorem left (h : s.Ready places (a ++ b)) : s.Ready places a := by
  refine ⟨h.loops, h.fresh.left, fun r hr => h.old r (hr.imp_right fun hmem => ?_)⟩
  rw [Block.defs, Block.instrs_append, List.flatMap_append]
  exact List.mem_append_left _ hmem

theorem right (h : s.Ready places (a ++ b)) (hf : s.Follows s' a.defs) : s'.Ready places b := by
  refine ⟨by rw [hf.loops, h.loops], h.fresh.right, fun r hr => ?_⟩
  have hmem : r ∈ Place.elements places ∨ r ∈ (a ++ b).defs := by
    refine hr.imp_right fun hmem => ?_
    rw [Block.defs, Block.instrs_append, List.flatMap_append]
    exact List.mem_append_right _ hmem
  have hnew : r ∉ a.defs := by
    rcases hr with hr | hr
    · exact h.fresh.left.outside r hr
    · exact fun ha => h.fresh.not_mem_right (.inl ha) hr
  obtain ⟨hvalues, hlt⟩ := h.old r hmem
  refine ⟨fun hin => ?_, Nat.lt_of_lt_of_le hlt hf.counter⟩
  obtain ⟨new, hnews, hdefs⟩ := hf.values
  rw [hnews, List.map_append] at hin
  rcases List.mem_append.1 hin with hin | hin
  · exact hnew (hdefs r hin)
  · exact hvalues hin

end Ready

theorem inline_cons {i : Instr} (h : s.replacement? done i = none) (is : List Instr) :
    s.inline done (i :: is) = { i with op := i.op.mapInputs s.reg } ::
      inline done { s with loops := OpenLoop.after s.loops i.op } is := by
  rw [inline, h]

theorem replacement?_of_not_refers {i : Instr} (h : i.op.refers = false) :
    s.replacement? done i = none := by
  rcases i with ⟨_, op, _⟩
  cases op with
  | loadDeclaration => cases h
  | _ => rfl

theorem inline_step {i : Instr} (hr : i.op.refers = false) (hd : i.op.isDelimiter = false)
    (is : List Instr) :
    s.inline done (i :: is) = { i with op := i.op.mapInputs s.reg } :: s.inline done is := by
  rw [inline_cons (replacement?_of_not_refers hr), OpenLoop.after_of_not_delimiter hd]

theorem refers_of_isLoad {op : Op} (h : isLoad op = true) : op.refers = false := by
  cases op with
  | loadDeclaration => cases h
  | _ => rfl

/-- Loads of inputs stay as they are where nothing that they read is replaced. -/
theorem inline_loads {is : List Instr} (hload : ∀ i ∈ is, isLoad i.op = true)
    (hfix : ∀ r ∈ reads is, s.reg r = r) (rest : List Instr) :
    s.inline done (is ++ rest) = is ++ s.inline done rest := by
  induction is with
  | nil => rfl
  | cons i is ih =>
    obtain ⟨hi, his⟩ := List.forall_mem_cons.1 hload
    rw [reads_cons] at hfix
    rw [List.cons_append, inline_step (refers_of_isLoad hi) (Instr.of_isLoad hi).1,
      Op.mapInputs_eq_self fun r hr => hfix r (List.mem_append_left _ hr),
      ih his fun r hr => hfix r (List.mem_append_right _ hr)]
    rfl

/-- What becomes of code, whatever follows it. -/
def Rewrites (done : List LoopCode) (places : List (Place Reg)) (b : Block)
    (result : Block → Site → Prop) : Prop :=
  ∀ s : Site, s.Ready places b → ∃ (b' : Block) (s' : Site),
    (∀ is, s.inline done (b.instrs ++ is) = b'.instrs ++ s'.inline done is) ∧
      s.Follows s' b.defs ∧ result b' s'

namespace Rewrites

variable {a b : Block} {P Q R : Block → Site → Prop}

theorem mono (h : Rewrites done places b P) (hPQ : ∀ b' s', P b' s' → Q b' s') :
    Rewrites done places b Q := by
  intro s hs
  obtain ⟨b', s', heq, hf, hP⟩ := h s hs
  exact ⟨b', s', heq, hf, hPQ b' s' hP⟩

theorem nil : Rewrites done places .done fun b' _ => b' = .done :=
  fun s _ => ⟨.done, s, fun _ => rfl, .refl s _, rfl⟩

theorem append (ha : Rewrites done places a P) (hb : Rewrites done places b Q)
    (hR : (a ++ b).Fresh places → ∀ a' b' s₁ s₂, s₁.Follows s₂ b.defs → P a' s₁ → Q b' s₂ →
      R (a' ++ b') s₂) :
    Rewrites done places (a ++ b) R := by
  intro s hs
  obtain ⟨a', s₁, ha', hf₁, hP⟩ := ha s hs.left
  obtain ⟨b', s₂, hb', hf₂, hQ⟩ := hb s₁ (hs.right hf₁)
  refine ⟨a' ++ b', s₂, fun is => ?_, hf₁.trans hf₂, hR hs.fresh a' b' s₁ s₂ hf₂ hP hQ⟩
  rw [Block.instrs_append, List.append_assoc, ha', hb', Block.instrs_append, List.append_assoc]

/-- An instruction stays, and reads what holds the values of its operands. -/
theorem step {i : Instr} (hr : i.op.refers = false) (hd : i.op.isDelimiter = false) :
    Rewrites done places (.step i .done) fun b' s' =>
      b' = .step { i with op := i.op.mapInputs s'.reg } .done ∧ ∀ r ∈ i.defs, s'.reg r = r := by
  intro s hs
  refine ⟨_, s, fun is => inline_step hr hd is, .refl s _, rfl, fun r hr => hs.reg_eq (.inr ?_)⟩
  rw [Block.defs, Block.instrs_step, List.flatMap_cons]
  exact List.mem_append_left _ hr

theorem loads {dtype : Option DType} {test : FieldPath → Bool} {path : FieldPath} {is : List Instr}
    {r : Reg} (h : Loads dtype places test path is r) :
    Rewrites done places (.steps is .done) fun b' s' => b' = .steps is .done ∧ s'.reg r = r := by
  intro s hs
  have hdefs : (Block.steps is .done).defs = is.flatMap Instr.defs := by
    rw [Block.defs, Block.instrs_steps, Block.instrs_done, List.append_nil]
  have hregular := Block.Regular.steps h.not_delimiter (b := .done) trivial
  have hreads := (h.scoped (List.Subset.refl _) []).inputs_subset hregular
  rw [Block.instrs_steps, Block.instrs_done, List.append_nil] at hreads
  refine ⟨.steps is .done, s, fun rest => ?_, .refl s _, rfl, ?_⟩
  · rw [Block.instrs_steps, Block.instrs_done, List.append_nil]
    exact inline_loads h.isLoad (fun q hq => hs.reg_eq (List.mem_append.1 (hreads hq))) rest
  · have hresult := h.result_mem
    rw [← hdefs] at hresult
    exact hs.reg_eq hresult.symm

end Rewrites

/-- Inside of a loop its element is one more that is not replaced. -/
theorem Ready.enter {o : Opening} {body : Block}
    (h : s.Ready places (.loop o.start body o.stop .done)) (logical : Axes) (carrier : FieldPath) :
    Ready { s with loops := o.loop :: s.loops } (⟨logical, carrier, o.element⟩ :: places) body := by
  refine ⟨?_, (h.fresh.of_loop logical carrier).1, fun r hr => h.old r ?_⟩
  · rw [List.map_cons, h.loops]
    rfl
  · rw [Block.defs_loop]
    rcases hr with hr | hr
    · rcases List.mem_cons.1 hr with rfl | hr
      · exact .inr List.mem_cons_self
      · exact .inl hr
    · exact .inr (List.mem_cons_of_mem _ (List.mem_cons_of_mem _ hr))

/-- Loops stay, around what becomes of the code inside of them. -/
theorem Rewrites.wrap {carriers : CarrierMap} {inner : List (Place Reg)} {axes rest : Axes}
    {os : List Opening} (h : Opens carriers places axes rest os inner) {body : Block}
    {P : Block → Prop} (hb : Rewrites done inner body fun b' _ => P b') :
    Rewrites done places (Opening.wrap os body) fun b' _ =>
      ∃ body', b' = Opening.wrap os body' ∧ P body' := by
  induction h with
  | nil => exact hb.mono fun b' _ hP => ⟨b', rfl, hP⟩
  | @cons places inner axes rest a carrier o os _ _ hl _ ih =>
    rw [Opening.wrap_cons]
    intro s hs
    obtain ⟨_, s₁, hloads, hf₁, rfl, hcollection⟩ := Rewrites.loads hl s hs.left
    have hs₁ := hs.right hf₁
    obtain ⟨_, t, hinner, hf, body', rfl, hP⟩ := ih hb _ (hs₁.enter (axes ++ [a]) carrier)
    refine ⟨.steps o.loads .done ++ .loop o.start (Opening.wrap os body') o.stop .done,
      { t with loops := s₁.loops }, fun is => ?_, hf₁.trans ⟨rfl, hf.counter, ?_⟩, body', ?_, hP⟩
    · have hstart : s₁.inline done (o.start :: ((Opening.wrap os body).instrs ++ o.stop :: is)) =
          o.start :: inline done { s₁ with loops := o.loop :: s₁.loops }
            ((Opening.wrap os body).instrs ++ o.stop :: is) := by
        rw [inline_cons rfl]
        simp only [Opening.start, Op.mapInputs, hcollection]
        rfl
      have hstop : t.inline done (o.stop :: is) =
          o.stop :: inline done { t with loops := s₁.loops } is := by
        rw [inline_cons rfl, hf.loops]
        rfl
      rw [Block.instrs_append, List.append_assoc, hloads, Block.instrs_loop, Block.instrs_done,
        List.cons_append, List.append_assoc, List.singleton_append, hstart, hinner, hstop]
      simp
    · obtain ⟨new, hnew, hin⟩ := hf.values
      refine ⟨new, hnew, fun r hr => ?_⟩
      rw [Block.defs_loop]
      exact List.mem_cons_of_mem _ (List.mem_cons_of_mem _ (hin r hr))
    · rw [Opening.wrap_cons]

/-- Code becomes inlined code for the same expressions. -/
def Transforms (env : Lowering.Env) (known : String → Option StampedExpr) (done : List LoopCode)
    (places : List (Place Reg)) (es : List StampedExpr) (b : Block) (rs : List Reg) : Prop :=
  Rewrites done places b fun b' s' =>
    ∃ refs, Emits env true known places es b' (rs.map s'.reg) refs

namespace Transforms

variable {es args : List StampedExpr} {b b₁ b₂ : Block} {rs rs₁ : List Reg}
  {inlined : Bool} {refs : List Reference}

/-- Results stay behind the code for what follows. -/
theorem map_reg_eq {defs : List Reg} (hf : Follows s s' defs) (hr : ∀ r ∈ rs, r ∉ defs) :
    rs.map s'.reg = rs.map s.reg :=
  List.map_congr_left fun r hmem => hf.reg_eq (hr r hmem)

theorem nil : Transforms env known done places [] .done [] := by
  refine Rewrites.nil.mono ?_
  rintro _ s' rfl
  exact ⟨[], .nil⟩

theorem cons {e : StampedExpr} {r : Reg} (h : Transforms env known done places [e] b₁ [r])
    (hr : r ∈ b₁.defs ∨ r ∈ Place.elements places)
    (h' : Transforms env known done places es b₂ rs) :
    Transforms env known done places (e :: es) (b₁ ++ b₂) (r :: rs) := by
  refine Rewrites.append h h' ?_
  rintro hfresh a' b' s₁ s₂ hf ⟨refs, he⟩ ⟨refs', hes⟩
  have hkeep : s₂.reg r = s₁.reg r := hf.reg_eq (hfresh.not_mem_right hr)
  refine ⟨refs ++ refs', ?_⟩
  rw [List.map_cons, hkeep]
  exact he.append hes

/-- Operands first, then an instruction that reads their values. -/
theorem put (hargs : Emits env inlined known places args b₁ rs₁ refs)
    (h : Transforms env known done places args b₁ rs₁) {i : Instr} (hr : i.op.refers = false)
    (hd : i.op.isDelimiter = false) :
    Rewrites done places (b₁ ++ .step i .done) fun b' s' => ∃ a' refs',
      b' = a' ++ .step { i with op := i.op.mapInputs s'.reg } .done ∧
      Emits env true known places args a' (rs₁.map s'.reg) refs' ∧ ∀ r ∈ i.defs, s'.reg r = r := by
  refine Rewrites.append h (Rewrites.step hr hd) ?_
  rintro hfresh a' _ s₁ s₂ hf ⟨refs', he⟩ ⟨rfl, hdefs⟩
  have hkeep : rs₁.map s₂.reg = rs₁.map s₁.reg :=
    map_reg_eq hf fun r hmem => hfresh.not_mem_right (hargs.results_mem r hmem)
  exact ⟨a', refs', rfl, hkeep ▸ he, hdefs⟩

theorem of_put (hargs : Emits env inlined known places args b₁ rs₁ refs)
    (h : Transforms env known done places args b₁ rs₁) {i : Instr} {r : Reg}
    (hi : i.result = some r)
    (hr : i.op.refers = false) (hd : i.op.isDelimiter = false) {e : StampedExpr}
    (hput : ∀ a' f refs', Emits env true known places args a' (rs₁.map f) refs' →
      ∃ refs'', Emits env true known places [e]
        (a' ++ .step { i with op := i.op.mapInputs f } .done) [r] refs'') :
    Transforms env known done places [e] (b₁ ++ .step i .done) [r] := by
  refine (put hargs h hr hd).mono ?_
  rintro _ s' ⟨a', refs', rfl, he, hdefs⟩
  rw [List.map_singleton, hdefs r (by simp [Instr.defs, hi])]
  exact hput a' s'.reg refs' he

theorem constant {m : Mark} {v : Literal} {r : Reg} {span : Span} :
    Transforms env known done places [.constant m v]
      (.step ⟨some r, .constant v m.stamp.dtype, span⟩ .done) [r] := by
  refine (Rewrites.step rfl rfl).mono ?_
  rintro _ s' ⟨rfl, hdefs⟩
  rw [List.map_singleton, hdefs r List.mem_cons_self]
  exact ⟨[], .constant .nil⟩

theorem input {m : Mark} {path : FieldPath} {is : List Instr} {r : Reg}
    (hl : Loads (some m.stamp.dtype) places path.startsWith path is r) :
    Transforms env known done places [.input m path] (.steps is .done) [r] := by
  refine (Rewrites.loads hl).mono ?_
  rintro _ s' ⟨rfl, hr⟩
  rw [List.map_singleton, hr]
  exact ⟨_, .input hl .nil⟩

/-- A load of a declaration stays, or the code of the declaration takes its place. -/
theorem load (hdone : Finished env known done) {axes : Axes} {trail : List Reg}
    (hst : Stack env.carriers Leads places axes trail) {m : Mark} {name : String}
    {body : StampedExpr} {r : Reg} {span : Span} (hk : known name = some body)
    (hx : body.axes = m.stamp.axes) (ha : m.stamp.axes <+: Place.logicalOf places) :
    Transforms env known done places [.ref m name]
      (.step ⟨some r, .loadDeclaration name m.stamp.axes m.stamp.dtype, span⟩ .done) [r] := by
  intro s hs
  have hr : s.reg r = r := hs.reg_eq (.inr List.mem_cons_self)
  cases hp : s.splice? done name with
  | none =>
    have hnone : s.replacement? done
        ⟨some r, .loadDeclaration name m.stamp.axes m.stamp.dtype, span⟩ = none := by
      simp only [replacement?, hp, Option.map_none]
    refine ⟨.step ⟨some r, .loadDeclaration name m.stamp.axes m.stamp.dtype, span⟩ .done, s,
      fun is => inline_cons hnone is, .refl s _, [], ?_⟩
    rw [List.map_singleton, hr]
    exact .load hk hx ha .nil
  | some p =>
    obtain ⟨_, n, body', ρ, -, -, hk', hn, haxes, hρ, rfl⟩ := exists_of_splice? hdone hs.bounds hp
    cases hk.symm.trans hk'
    have hlen : n.openings.length = s.loops.length := by
      simpa [Nest.context] using congrArg List.length haxes
    have hcount : places.length = body.axes.length := by
      rw [← hn.opens.elements_eq.1, hlen, ← List.length_map OpenLoop.element, hs.loops,
        Place.elements, List.length_map]
    have helements : (n.openings.map fun o => ρ.reg o.element) =
        (Place.elements places).reverse := by
      rw [hρ.elements, List.map_reverse, hs.loops]
    have hplaces : n.places.map ρ.place = places :=
      hn.places_eq ρ hst (hx ▸ hst.logicalOf_eq ▸ ha) hcount helements
    have he := hn.emits.rename ρ
    rw [hplaces] at he
    refine ⟨n.block.map ρ.instr, ⟨ρ.counter, (r, ρ.reg n.value) :: s.values, s.loops⟩, fun is => ?_,
      ⟨rfl, hρ.regs.le, [(r, ρ.reg n.value)], rfl, fun q hq => hq⟩,
      n.refs.map ρ.reference ++ [], ?_⟩
    · have hsome : s.replacement? done
          ⟨some r, .loadDeclaration name m.stamp.axes m.stamp.dtype, span⟩ =
          some (r, ⟨(n.block.map ρ.instr).instrs, ρ.reg n.value, ρ.counter⟩) := by
        simp only [replacement?, hp, Option.map_some]
      rw [Block.instrs_step, Block.instrs_done, List.singleton_append, inline, hsome]
    · have hvalue : reg ⟨ρ.counter, (r, ρ.reg n.value) :: s.values, s.loops⟩ r = ρ.reg n.value := by
        rw [reg, List.lookup_cons_self]
        rfl
      rw [List.map_singleton, hvalue]
      have := Emits.compute rfl hk hx ha (hcount.trans (congrArg List.length hx)) he .nil
      rwa [Block.append_done] at this

/-- The loops of a reduction stay, around the code of its argument. -/
theorem reduce {m : Mark} {op : String} {reduced : Axes} {arg : StampedExpr} {os : List Opening}
    {inner : List (Place Reg)} {v r : Reg} {acc : AccId} {start : Literal} {s₁ s₂ s₃ : Span}
    (ha : m.stamp.axes <+: Place.logicalOf places) (hx : arg.axes = m.stamp.axes ++ reduced)
    (hne : reduced ≠ []) (hi : Lowering.identity env op m.stamp.dtype m.span = .ok start)
    (ho : Opens env.carriers places m.stamp.axes reduced os inner)
    (harg : Emits env inlined known inner [arg] b₁ [v] refs)
    (h : Transforms env known done inner [arg] b₁ [v]) :
    Transforms env known done places [.reduce m op reduced arg]
      (.step ⟨none, .declareAccumulator acc op start m.stamp.dtype, s₁⟩
        (Opening.wrap os (b₁ ++ .step ⟨none, .accumulate acc op v, s₂⟩ .done) ++
          .step ⟨some r, .loadAccumulator acc m.stamp.dtype, s₃⟩ .done)) [r] := by
  have hadd : Rewrites done inner (b₁ ++ .step ⟨none, .accumulate acc op v, s₂⟩ .done)
      fun b' _ => ∃ a' v' refs', b' = a' ++ .step ⟨none, .accumulate acc op v', s₂⟩ .done ∧
        Emits env true known inner [arg] a' [v'] refs' := by
    refine (put harg h rfl rfl).mono ?_
    rintro _ s' ⟨a', refs', rfl, he, -⟩
    exact ⟨a', s'.reg v, refs', rfl, he⟩
  have hout : Rewrites done places
      (Opening.wrap os (b₁ ++ .step ⟨none, .accumulate acc op v, s₂⟩ .done) ++
        .step ⟨some r, .loadAccumulator acc m.stamp.dtype, s₃⟩ .done)
      fun b' s' => ∃ a' v' refs',
        b' = Opening.wrap os (a' ++ .step ⟨none, .accumulate acc op v', s₂⟩ .done) ++
          .step ⟨some r, .loadAccumulator acc m.stamp.dtype, s₃⟩ .done ∧
        Emits env true known inner [arg] a' [v'] refs' ∧ s'.reg r = r := by
    refine Rewrites.append (Rewrites.wrap ho hadd) (Rewrites.step rfl rfl) ?_
    rintro - _ _ _ s' - ⟨_, rfl, a', v', refs', rfl, he⟩ ⟨rfl, hdefs⟩
    exact ⟨a', v', refs', rfl, he, hdefs r List.mem_cons_self⟩
  refine Rewrites.append (a := .step _ .done) (Rewrites.step rfl rfl) hout ?_
  rintro - _ _ _ s' - ⟨rfl, -⟩ ⟨a', v', refs', rfl, he, hr⟩
  rw [List.map_singleton, hr]
  exact ⟨_, .reduce ha hx hne hi ho he .nil⟩

end Transforms

/-- Emitted code becomes inlined code for the same expressions. -/
theorem transforms (hdone : Finished env known done) {es : List StampedExpr} {b : Block}
    {rs : List Reg} {refs : List Reference} (h : Emits env false known places es b rs refs)
    {axes : Axes} {trail : List Reg} (hst : Stack env.carriers Leads places axes trail) :
    Transforms env known done places es b rs := by
  induction h generalizing axes trail with
  | nil => exact .nil
  | constant _ ih => exact Transforms.constant.cons (.inl List.mem_cons_self) (ih hst)
  | @input places m path es b is r rs refs hl _ ih =>
    have hsplit : Block.steps is b = Block.steps is .done ++ b := by
      rw [Block.steps_append]
      rfl
    rw [hsplit]
    refine (Transforms.input hl).cons ?_ (ih hst)
    rw [Block.defs, Block.instrs_steps, Block.instrs_done, List.append_nil]
    exact hl.result_mem
  | load hk hx ha _ ih =>
    exact (Transforms.load hdone hst hk hx ha).cons (.inl List.mem_cons_self) (ih hst)
  | compute hi => cases hi
  | call hargs _ ihargs ih =>
    rw [Block.append_step]
    exact .cons (.of_put hargs (ihargs hst) rfl rfl rfl fun _ _ _ he => ⟨_, .call he .nil⟩)
      (.inl (by simp [Instr.defs])) (ih hst)
  | tuple hargs _ ihargs ih =>
    rw [Block.append_step]
    exact .cons (.of_put hargs (ihargs hst) rfl rfl rfl fun _ _ _ he => ⟨_, .tuple he .nil⟩)
      (.inl (by simp [Instr.defs])) (ih hst)
  | select hargs _ ihargs ih =>
    rw [Block.append_step]
    exact .cons (.of_put hargs (ihargs hst) rfl rfl rfl fun _ _ _ he => ⟨_, .select he .nil⟩)
      (.inl (by simp [Instr.defs])) (ih hst)
  | reduce ha hx hne hi ho harg _ iharg ih =>
    have hinner := ho.stack hne hst (hst.logicalOf_eq ▸ ha)
    rw [Block.append_step]
    exact .cons (.reduce ha hx hne hi ho harg (iharg hinner)) (.inl (by simp [Instr.defs])) (ih hst)

end Site
end Inlining
end LoopNest
