import LoopNest.Session
import LoopNest.Proofs.Fallible

/-! The passes of a run. What a pass gives depends on the program and the functions alone, once the
passes whose results it reads have run. So a run goes through just if each of its passes succeeds
for the program, and it then leaves the results of all of them. -/
namespace LoopNest

/-- The passes whose results a pass reads. -/
def Pass.reads : Pass → List Pass
  | .analyze => []
  | .stamp => [.analyze]
  | .carriers => [.stamp]
  | .lower => [.stamp, .carriers]
  | .verify | .inline => [.lower]

/-- Whether each pass comes behind those whose results it reads. -/
def Pass.ordered (done : List Pass) : List Pass → Bool
  | [] => true
  | p :: ps => p.reads.all done.contains && ordered (done ++ [p]) ps

namespace Program

/-- The code of a program, by all passes that lead to it. -/
def code (p : Program) (registry : Registry) : Except Diagnostic LoopModule := do
  let a ← Analysis.ofGraph p.graph p.inputs registry
  let sm ← StampedModule.ofGraph p.graph a registry
  let carriers ← CarrierMap.ofModule sm
  LoopModule.ofStamped sm carriers registry

/-- The run of a program up to its code. -/
abbrev lowering (p : Program) (registry : Registry) (inlining : Bool) :=
  (Session.ofProgram p registry).run .lower inlining

/-- The analysis of a program. -/
def analysis (p : Program) (registry : Registry) : Except Diagnostic Analysis :=
  Analysis.ofGraph p.graph p.inputs registry

/-- The stamps of a program, by its analysis. -/
def stamped (p : Program) (registry : Registry) : Except Diagnostic StampedModule := do
  StampedModule.ofGraph p.graph (← p.analysis registry) registry

/-- The carriers of a program, by its stamps. -/
def carriers (p : Program) (registry : Registry) : Except Diagnostic CarrierMap := do
  CarrierMap.ofModule (← p.stamped registry)

/-- The check of the code of a program. -/
def checked (p : Program) (registry : Registry) : Except Diagnostic Unit := do
  (← p.code registry).check

/-- The inlined code of a program, which has to be valid again. -/
def inlined (p : Program) (registry : Registry) : Except Diagnostic LoopModule := do
  let m ← p.code registry
  m.inline.check.map fun _ => m.inline

/-- Whether a pass succeeds for a program. -/
def verdict (p : Program) (registry : Registry) : Pass → Except Diagnostic Unit
  | .analyze => (p.analysis registry).map fun _ => ()
  | .stamp => (p.stamped registry).map fun _ => ()
  | .carriers => (p.carriers registry).map fun _ => ()
  | .lower => (p.code registry).map fun _ => ()
  | .verify => p.checked registry
  | .inline => (p.inlined registry).map fun _ => ()

/-- The code comes from the results of the passes before, each from those that it reads. -/
theorem code_eq_ok {p : Program} {registry : Registry} {m : LoopModule}
    (h : p.code registry = .ok m) :
    ∃ a sm c, p.analysis registry = .ok a ∧ p.stamped registry = .ok sm ∧
      p.carriers registry = .ok c ∧ StampedModule.ofGraph p.graph a registry = .ok sm ∧
      CarrierMap.ofModule sm = .ok c ∧ LoopModule.ofStamped sm c registry = .ok m := by
  obtain ⟨a, ha, h⟩ := Except.bind_eq_ok.1 h
  obtain ⟨sm, hsm, h⟩ := Except.bind_eq_ok.1 h
  obtain ⟨c, hc, hm⟩ := Except.bind_eq_ok.1 h
  have hstamped : p.stamped registry = .ok sm := Except.bind_eq_ok.2 ⟨a, ha, hsm⟩
  exact ⟨a, sm, c, ha, hstamped, Except.bind_eq_ok.2 ⟨sm, hstamped, hc⟩, hsm, hc, hm⟩

theorem inlined_eq_ok {p : Program} {registry : Registry} {i : LoopModule}
    (h : p.inlined registry = .ok i) : ∃ m, p.code registry = .ok m ∧ i = m.inline := by
  obtain ⟨m, hm, h⟩ := Except.bind_eq_ok.1 h
  obtain ⟨_, -, rfl⟩ := Except.map_eq_ok.1 h
  exact ⟨m, hm, rfl⟩

theorem code_of_carriers {p : Program} {registry : Registry} {sm : StampedModule} {c : CarrierMap}
    (hs : p.stamped registry = .ok sm) (hc : p.carriers registry = .ok c) :
    p.code registry = LoopModule.ofStamped sm c registry := by
  obtain ⟨a, ha, hsm⟩ := Except.bind_eq_ok.1 hs
  obtain ⟨sm', hs', hc⟩ := Except.bind_eq_ok.1 hc
  cases hs.symm.trans hs'
  rw [analysis] at ha
  simp only [code, ha, hsm, hc, bind, Except.bind]

end Program

/-- The artifacts after some passes have run for a program; those of other passes stay. -/
def Artifacts.renew (x : Artifacts) (p : Program) (registry : Registry) (done : List Pass) :
    Artifacts where
  analysis := if .analyze ∈ done then (p.analysis registry).toOption else x.analysis
  stamped := if .stamp ∈ done then (p.stamped registry).toOption else x.stamped
  carriers := if .carriers ∈ done then (p.carriers registry).toOption else x.carriers
  code := if .lower ∈ done then (p.code registry).toOption else x.code
  inlined := if .inline ∈ done then (p.inlined registry).toOption else x.inlined

namespace Session

/-- The session after passes that succeeded. -/
def renew (s : Session) (done : List Pass) : Session :=
  { s with artifacts := s.artifacts.renew s.program s.registry done }

/-- How a run through passes ends: the pass that fails, if one does, what is reported pass by pass,
and the session after the run. -/
inductive Ran (s : Session) (passes : List Pass) : Option Pass → List Outcome × Session → Prop
  /-- All passes succeed. -/
  | through : (∀ p ∈ passes, s.program.verdict s.registry p = .ok ()) →
    Ran s passes none (passes.map (⟨·, none⟩), s.renew passes)
  /-- The passes before one that fails succeed, and those behind it are not executed. -/
  | stopped {done rest : List Pass} {p : Pass} {d : Diagnostic} : passes = done ++ p :: rest →
    (∀ q ∈ done, s.program.verdict s.registry q = .ok ()) →
    s.program.verdict s.registry p = .error d →
    Ran s passes (some p) (done.map (⟨·, none⟩) ++ [⟨p, some d⟩],
      { s.renew done with diagnostics := s.diagnostics ++ [d], hasError := true })

section Step

variable {s : Session} {done : List Pass}

theorem stamp_renew {a : Analysis} (hmem : .analyze ∈ done)
    (ha : s.program.analysis s.registry = .ok a) :
    (s.renew done).stamp = s.program.stamped s.registry := by
  simp only [stamp, renew, Artifacts.renew, if_pos hmem, ha, Except.toOption, Program.stamped,
    bind, Except.bind]

theorem findCarriers_renew {sm : StampedModule} (hmem : .stamp ∈ done)
    (hs : s.program.stamped s.registry = .ok sm) :
    (s.renew done).findCarriers = s.program.carriers s.registry := by
  simp only [findCarriers, renew, Artifacts.renew, if_pos hmem, hs, Except.toOption,
    Program.carriers, bind, Except.bind]

theorem lower_renew {sm : StampedModule} {c : CarrierMap} (hmem : .stamp ∈ done)
    (hmem' : .carriers ∈ done) (hs : s.program.stamped s.registry = .ok sm)
    (hc : s.program.carriers s.registry = .ok c) :
    (s.renew done).lower = s.program.code s.registry := by
  simp only [lower, renew, Artifacts.renew, if_pos hmem, if_pos hmem', hs, hc, Except.toOption,
    Program.code_of_carriers hs hc]

theorem verify_renew {m : LoopModule} (hmem : .lower ∈ done)
    (hm : s.program.code s.registry = .ok m) :
    (s.renew done).verify = s.program.checked s.registry := by
  simp only [verify, renew, Artifacts.renew, if_pos hmem, hm, Except.toOption, Program.checked,
    bind, Except.bind]

theorem inline_renew {m : LoopModule} (hmem : .lower ∈ done)
    (hm : s.program.code s.registry = .ok m) :
    (s.renew done).inline = s.program.inlined s.registry := by
  simp only [inline, renew, Artifacts.renew, if_pos hmem, hm, Except.toOption, Program.inlined,
    bind, Except.bind]

theorem map_eq_of_ok {ε α β : Type} {x : Except ε α} {put : α → β} {b : β}
    (h : ∀ a, x = .ok a → put a = b) : x.map put = (x.map fun _ => ()).map fun _ => b := by
  cases x with
  | error e => rfl
  | ok a => exact congrArg Except.ok (h a rfl)

/-- A pass behind those that it reads gives what it gives for the program. -/
theorem compute_renew {p : Pass} (hdone : ∀ q ∈ done, s.program.verdict s.registry q = .ok ())
    (hreads : ∀ q ∈ p.reads, q ∈ done) :
    (s.renew done).compute p =
      (s.program.verdict s.registry p).map fun _ => (s.renew (done ++ [p])).artifacts := by
  have hread {α : Type} {x : Except Diagnostic α} {q : Pass} (hq : q ∈ p.reads)
      (hx : s.program.verdict s.registry q = x.map fun _ => ()) : q ∈ done ∧ ∃ a, x = .ok a := by
    obtain ⟨a, ha, -⟩ := Except.map_eq_ok.1 (hx.symm.trans (hdone q (hreads q hq)))
    exact ⟨hreads q hq, a, ha⟩
  cases p with
  | analyze =>
    refine map_eq_of_ok fun a ha => ?_
    change s.program.analysis s.registry = .ok a at ha
    simp [renew, Artifacts.renew, ha, Except.toOption]
  | stamp =>
    obtain ⟨hmem, a, ha⟩ := hread (by decide) (q := .analyze) rfl
    rw [compute, stamp_renew hmem ha]
    refine map_eq_of_ok fun sm hsm => ?_
    simp [renew, Artifacts.renew, hsm, Except.toOption]
  | carriers =>
    obtain ⟨hmem, sm, hs⟩ := hread (by decide) (q := .stamp) rfl
    rw [compute, findCarriers_renew hmem hs]
    refine map_eq_of_ok fun c hc => ?_
    simp [renew, Artifacts.renew, hc, Except.toOption]
  | lower =>
    obtain ⟨hmem, sm, hs⟩ := hread (by decide) (q := .stamp) rfl
    obtain ⟨hmem', c, hc⟩ := hread (by decide) (q := .carriers) rfl
    rw [compute, lower_renew hmem hmem' hs hc]
    refine map_eq_of_ok fun m hm => ?_
    simp [renew, Artifacts.renew, hm, Except.toOption]
  | verify =>
    obtain ⟨hmem, m, hm⟩ := hread (by decide) (q := .lower) rfl
    rw [compute, verify_renew hmem hm]
    refine congrArg (fun x => Except.map x _) (funext fun _ => ?_)
    simp [renew, Artifacts.renew]
  | inline =>
    obtain ⟨hmem, m, hm⟩ := hread (by decide) (q := .lower) rfl
    rw [compute, inline_renew hmem hm]
    refine map_eq_of_ok fun i hi => ?_
    simp [renew, Artifacts.renew, hi, Except.toOption]

end Step

section Run

variable {s : Session} {done ps : List Pass} {p : Pass} {d : Diagnostic}

theorem performAll_renew_ok (hdone : ∀ q ∈ done, s.program.verdict s.registry q = .ok ())
    (hreads : ∀ q ∈ p.reads, q ∈ done) (hp : s.program.verdict s.registry p = .ok ()) :
    (s.renew done).performAll (p :: ps) =
      (⟨p, none⟩ :: ((s.renew (done ++ [p])).performAll ps).1,
        ((s.renew (done ++ [p])).performAll ps).2) := by
  rw [performAll, perform, compute_renew hdone hreads, hp]
  rfl

theorem performAll_renew_error (hdone : ∀ q ∈ done, s.program.verdict s.registry q = .ok ())
    (hreads : ∀ q ∈ p.reads, q ∈ done) (hp : s.program.verdict s.registry p = .error d) :
    (s.renew done).performAll (p :: ps) = ([⟨p, some d⟩],
      { s.renew done with diagnostics := s.diagnostics ++ [d], hasError := true }) := by
  rw [performAll, perform, compute_renew hdone hreads, hp]
  rfl

/-- A run through passes, each behind those that it reads, where others succeeded before. -/
theorem ran_performAll (hdone : ∀ q ∈ done, s.program.verdict s.registry q = .ok ())
    (hps : Pass.ordered done ps = true) :
    Ran s (done ++ ps) (failed? ((s.renew done).performAll ps).1)
      (done.map (⟨·, none⟩) ++ ((s.renew done).performAll ps).1,
        ((s.renew done).performAll ps).2) := by
  induction ps generalizing done with
  | nil =>
    rw [performAll, List.append_nil, List.append_nil]
    exact .through hdone
  | cons p ps ih =>
    rw [Pass.ordered, Bool.and_eq_true] at hps
    have hreads : ∀ q ∈ p.reads, q ∈ done := by simpa using hps.1
    cases hp : s.program.verdict s.registry p with
    | error d =>
      rw [performAll_renew_error hdone hreads hp]
      exact .stopped rfl hdone hp
    | ok u =>
      rw [performAll_renew_ok hdone hreads hp]
      have hdone' : ∀ q ∈ done ++ [p], s.program.verdict s.registry q = .ok () :=
        List.forall_mem_append.2 ⟨hdone, List.forall_mem_singleton.2 hp⟩
      have hrest := ih hdone' hps.2
      rw [List.map_append, List.append_assoc, List.append_assoc] at hrest
      exact hrest

theorem ordered_plan (terminal : Pass) (inlining : Bool) :
    Pass.ordered [] (plan terminal inlining) = true := by
  cases terminal <;> cases inlining <;> rfl

theorem ran_run (s : Session) (terminal : Pass) (inlining : Bool) :
    Ran s (plan terminal inlining) (failed? (s.run terminal inlining).1)
      (s.run terminal inlining) :=
  ran_performAll (List.forall_mem_nil _) (ordered_plan terminal inlining)

theorem Ran.fails_eq_none {passes : List Pass} {fails : Option Pass} {x : List Outcome × Session}
    (h : Ran s passes fails x) :
    fails = none ↔ ∀ p ∈ passes, s.program.verdict s.registry p = .ok () := by
  cases h with
  | through hall => exact ⟨fun _ => hall, fun _ => rfl⟩
  | @stopped done rest p d hpasses _ hp =>
    refine ⟨fun h => (nomatch h), fun hall => ?_⟩
    have hmem : p ∈ passes := hpasses ▸ List.mem_append_right _ List.mem_cons_self
    cases hp.symm.trans (hall p hmem)

theorem Ran.eq_of_none {passes : List Pass} {x : List Outcome × Session} (h : Ran s passes none x) :
    x = (passes.map (⟨·, none⟩), s.renew passes) := by
  cases h
  rfl

variable {terminal : Pass} {inlining : Bool}

/-- A run goes through just if all of its passes succeed. -/
theorem run_ok_iff : failed? (s.run terminal inlining).1 = none ↔
    ∀ p ∈ plan terminal inlining, s.program.verdict s.registry p = .ok () :=
  (ran_run s terminal inlining).fails_eq_none

/-- A run that goes through leaves the results of all of its passes. -/
theorem run_of_ok (hok : failed? (s.run terminal inlining).1 = none) :
    s.run terminal inlining =
      ((plan terminal inlining).map (⟨·, none⟩), s.renew (plan terminal inlining)) :=
  Ran.eq_of_none (hok ▸ ran_run s terminal inlining)

end Run

theorem plan_lower (inlining : Bool) :
    plan .lower inlining = [.analyze, .stamp, .carriers, .lower] := by
  cases inlining <;> rfl

/-- A run up to the code that does not fail computed all that leads to the code. -/
theorem run_lower {p : Program} {registry : Registry} {inlining : Bool}
    (hok : failed? (p.lowering registry inlining).1 = none) :
    ∃ a sm carriers m, Analysis.ofGraph p.graph p.inputs registry = .ok a ∧
      StampedModule.ofGraph p.graph a registry = .ok sm ∧ CarrierMap.ofModule sm = .ok carriers ∧
      LoopModule.ofStamped sm carriers registry = .ok m ∧
      (p.lowering registry inlining).2.artifacts =
        ⟨some a, some sm, some carriers, some m, none⟩ := by
  have hlower : p.verdict registry .lower = .ok () :=
    run_ok_iff.1 hok .lower (by rw [plan_lower]; decide)
  obtain ⟨m, hm, -⟩ := Except.map_eq_ok.1 hlower
  obtain ⟨a, sm, c, ha, hs, hc, hsm, hcarriers, hl⟩ := Program.code_eq_ok hm
  refine ⟨a, sm, c, m, ha, hsm, hcarriers, hl, ?_⟩
  rw [Program.lowering, run_of_ok hok, plan_lower]
  simp [renew, Artifacts.renew, ofProgram, Artifacts.empty, ha, hs, hc, hm, Except.toOption]

end Session
end LoopNest
