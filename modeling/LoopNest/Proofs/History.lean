import LoopNest.Proofs.Pipeline

/-! Sessions over time. Runs with whatever aim, manifests and other programs follow one another in
one session, and results of earlier runs stay in it. A run that goes through leaves the code of the
program and of the functions at the time. What it hands out is that code, in its inlined form where
it inlined; but a run that leaves inlining out hands out whatever an earlier run inlined last. -/
namespace LoopNest

namespace Session

/-- What a session can go through. -/
inductive Event where
  | run (terminal : Pass) (inlining : Bool)
  | load (manifest : String)
  /-- Other inputs and another graph. -/
  | replace (program : Program)

/-- The session after an event, whether it fails or not. -/
def after (s : Session) : Event → Session
  | .run terminal inlining => (s.run terminal inlining).2
  | .load manifest => (s.loadManifest manifest).2
  | .replace program => { s with program := program }

/-- The session after events, one after the other. -/
def afterAll (s : Session) (es : List Event) : Session := es.foldl after s

/-- The code that an event inlines: that of the program at the time, where the run goes through. -/
def inlinedBy (s : Session) : Event → Option LoopModule
  | .run .inline true =>
    match failed? (s.run .inline true).1 with
    | some _ => none
    | none => (s.program.code s.registry).toOption.map LoopModule.inline
  | _ => none

/-- The code that was inlined last in the course of events. -/
def lastInlined (s : Session) : List Event → Option LoopModule
  | [] => none
  | e :: es => (lastInlined (s.after e) es).or (s.inlinedBy e)

/-- The passes that were executed, in order. -/
def executed (outcomes : List Outcome) : List Pass := outcomes.map Outcome.pass

variable {s s' : Session} {p : Pass} {ps : List Pass} {outcomes : List Outcome} {terminal : Pass}
  {inlining : Bool}

theorem inline_mem_plan :
    .inline ∈ plan terminal inlining ↔ terminal = .inline ∧ inlining = true := by
  cases terminal <;> cases inlining <;> decide

/-- Inlining comes last. -/
theorem inline_notMem_of_plan {done rest : List Pass}
    (h : plan terminal inlining = done ++ p :: rest) : .inline ∉ done := by
  have hlast : .inline ∉ (plan terminal inlining).dropLast := by
    cases terminal <;> cases inlining <;> decide
  rw [h, List.dropLast_append_cons] at hlast
  exact fun hmem => hlast (List.mem_append_left _ hmem)

/-- What a run leaves that goes through and leads to code. -/
theorem artifacts_run (ht : terminal = .lower ∨ terminal = .verify ∨ terminal = .inline)
    (hok : failed? (s.run terminal inlining).1 = none) :
    ∃ m, s.program.code s.registry = .ok m ∧
      (s.run terminal inlining).2.artifacts.code = some m ∧
      (s.run terminal inlining).2.artifacts.inlined =
        if .inline ∈ plan terminal inlining then some m.inline else s.artifacts.inlined := by
  have hall := run_ok_iff.1 hok
  have hlower : .lower ∈ plan terminal inlining := by
    rcases ht with rfl | rfl | rfl <;> cases inlining <;> decide
  obtain ⟨m, hm, -⟩ := Except.map_eq_ok.1 (hall .lower hlower)
  refine ⟨m, hm, ?_, ?_⟩
  · simp [run_of_ok hok, renew, Artifacts.renew, hlower, hm, Except.toOption]
  · by_cases hin : .inline ∈ plan terminal inlining
    · obtain ⟨i, hi, -⟩ := Except.map_eq_ok.1 (hall .inline hin)
      obtain ⟨m', hm', rfl⟩ := Program.inlined_eq_ok hi
      cases hm.symm.trans hm'
      simp [run_of_ok hok, renew, Artifacts.renew, hin, hi, Except.toOption]
    · simp [run_of_ok hok, renew, Artifacts.renew, hin]

/-- A run that fails or leaves inlining out leaves what was inlined before. -/
theorem inlined_run_of_not
    (h : ¬ (.inline ∈ plan terminal inlining ∧ failed? (s.run terminal inlining).1 = none)) :
    (s.run terminal inlining).2.artifacts.inlined = s.artifacts.inlined := by
  have hran := ran_run s terminal inlining
  generalize failed? (s.run terminal inlining).1 = fails at hran h
  generalize s.run terminal inlining = x at hran ⊢
  cases hran with
  | through hall => exact if_neg fun hin => h ⟨hin, rfl⟩
  | stopped hplan hdone hp => exact if_neg (inline_notMem_of_plan hplan)

theorem inlinedBy_run_of_not
    (h : ¬ (.inline ∈ plan terminal inlining ∧ failed? (s.run terminal inlining).1 = none)) :
    s.inlinedBy (.run terminal inlining) = none := by
  unfold inlinedBy
  split
  next heq =>
    cases heq
    cases hok : failed? (s.run .inline true).1 with
    | some q => rfl
    | none => exact absurd ⟨by decide, hok⟩ h
  next => rfl

/-- What is inlined changes by an event that inlines, and by no other. -/
theorem inlined_after (s : Session) (e : Event) :
    (s.after e).artifacts.inlined = (s.inlinedBy e).or s.artifacts.inlined := by
  cases e with
  | run terminal inlining =>
    rw [after]
    by_cases h : .inline ∈ plan terminal inlining ∧ failed? (s.run terminal inlining).1 = none
    · obtain ⟨hin, hok⟩ := h
      obtain ⟨rfl, rfl⟩ := inline_mem_plan.1 hin
      obtain ⟨m, hm, -, hinlined⟩ := artifacts_run (.inr (.inr rfl)) hok
      rw [hinlined, if_pos hin, inlinedBy, hok, hm]
      rfl
    · rw [inlined_run_of_not h, inlinedBy_run_of_not h, Option.none_or]
  | load manifest => rfl
  | replace program => rfl

theorem inlined_afterAll (s : Session) (es : List Event) :
    (s.afterAll es).artifacts.inlined = (s.lastInlined es).or s.artifacts.inlined := by
  induction es generalizing s with
  | nil => rfl
  | cons e es ih =>
    change ((s.after e).afterAll es).artifacts.inlined = _
    rw [ih, inlined_after, lastInlined, Option.or_assoc]

theorem inlined_ofSource {source : String} {registry : Registry}
    (h : ofSource source registry = .ok s) : s.artifacts.inlined = none := by
  obtain ⟨program, -, h⟩ := Except.bind_eq_ok.1 h
  cases h
  rfl

/-- After a run that goes through and leads to code, the session hands out the code of its program
and its functions, inlined if the run inlined; but if the run did not and code was inlined earlier
in the session, it hands out what was inlined last. -/
theorem finalCode_run {source : String} {registry : Registry} {s₀ : Session} {es : List Event}
    {terminal : Pass} {inlining : Bool} (h₀ : ofSource source registry = .ok s₀)
    (hs : s = s₀.afterAll es) (hrun : s.run terminal inlining = (outcomes, s'))
    (hok : failed? outcomes = none)
    (ht : terminal = .lower ∨ terminal = .verify ∨ terminal = .inline) :
    ∃ m, s'.program.code s'.registry = .ok m ∧
      (s'.finalCode = some (if .inline ∈ executed outcomes then m.inline
        else (s₀.lastInlined es).getD m)) ∧
      (s'.finalCode = some (if .inline ∈ executed outcomes then m.inline else m) ↔
        .inline ∈ executed outcomes ∨ ∀ i, s₀.lastInlined es = some i → i = m) := by
  have hok' : failed? (s.run terminal inlining).1 = none := by rw [hrun]; exact hok
  obtain ⟨m, hm, hcode, hinlined⟩ := artifacts_run ht hok'
  obtain ⟨hreport, hleft⟩ := Prod.mk.inj (hrun.symm.trans (run_of_ok hok'))
  have hexecuted : executed outcomes = plan terminal inlining := by
    simp [executed, hreport, Function.comp_def]
  rw [hrun] at hcode hinlined
  have hslot : s.artifacts.inlined = s₀.lastInlined es := by
    rw [hs, inlined_afterAll, inlined_ofSource h₀, Option.or_none]
  rw [hslot, ← hexecuted] at hinlined
  have hfinal : s'.finalCode =
      some (if .inline ∈ executed outcomes then m.inline else (s₀.lastInlined es).getD m) := by
    rw [finalCode, hinlined, hcode]
    split
    · rfl
    · cases s₀.lastInlined es <;> rfl
  refine ⟨m, by rw [hleft]; exact hm, hfinal, ?_⟩
  rw [hfinal, Option.some.injEq]
  by_cases hin : .inline ∈ executed outcomes
  · simp [hin]
  · rw [if_neg hin, if_neg hin]
    cases s₀.lastInlined es <;> simp [hin]

/-- A program replaces one that was inlined. -/
def exchange (program : Program) : List Event := [.run .inline true, .replace program]

theorem exchange_finalCode_run :
    ∃ s₀ p outcomes s', ofSource "value x = 1" .builtins = .ok s₀ ∧
      Program.ofSource "value y = 2" = .ok p ∧
      (s₀.afterAll (exchange p)).run .lower true = (outcomes, s') ∧ failed? outcomes = none ∧
      ∃ m, s'.program.code s'.registry = .ok m ∧
        (s'.finalCode = some (if .inline ∈ executed outcomes then m.inline
          else (s₀.lastInlined (exchange p)).getD m)) ∧
        (s'.finalCode = some (if .inline ∈ executed outcomes then m.inline else m) ↔
          .inline ∈ executed outcomes ∨ ∀ i, s₀.lastInlined (exchange p) = some i → i = m) := by
  have h : (ofSource "value x = 1" .builtins).toOption.any (fun s₀ =>
      (Program.ofSource "value y = 2").toOption.any fun p =>
        decide (failed? ((s₀.afterAll (exchange p)).run .lower true).1 = none)) = true := by
    decide +kernel
  obtain ⟨s₀, hs, h⟩ := Except.exists_of_any h
  obtain ⟨p, hp, h⟩ := Except.exists_of_any h
  have hok := of_decide_eq_true h
  rcases hrun : (s₀.afterAll (exchange p)).run .lower true with ⟨outcomes, s'⟩
  rw [hrun] at hok
  exact ⟨s₀, p, outcomes, s', hs, hp, hrun, hok, finalCode_run hs rfl hrun hok (.inl rfl)⟩

/-- The code that is handed out belongs to the program that was replaced. -/
theorem finalCode_stale :
    ∃ s₀ p m, ofSource "value x = 1" .builtins = .ok s₀ ∧ Program.ofSource "value y = 2" = .ok p ∧
      p.code .builtins = .ok m ∧
      failed? ((s₀.afterAll (exchange p)).run .lower true).1 = none ∧
      .inline ∉ executed ((s₀.afterAll (exchange p)).run .lower true).1 ∧
      ((s₀.afterAll (exchange p)).run .lower true).2.finalCode ≠ some m ∧
      ((s₀.afterAll (exchange p)).run .lower true).2.finalCode ≠ some m.inline := by
  have h : (ofSource "value x = 1" .builtins).toOption.any (fun s₀ =>
      (Program.ofSource "value y = 2").toOption.any fun p =>
        (p.code .builtins).toOption.any fun m => decide
          (failed? ((s₀.afterAll (exchange p)).run .lower true).1 = none ∧
          .inline ∉ executed ((s₀.afterAll (exchange p)).run .lower true).1 ∧
          ((s₀.afterAll (exchange p)).run .lower true).2.finalCode ≠ some m ∧
          ((s₀.afterAll (exchange p)).run .lower true).2.finalCode ≠ some m.inline)) = true := by
    decide +kernel
  obtain ⟨s₀, hs, h⟩ := Except.exists_of_any h
  obtain ⟨p, hp, h⟩ := Except.exists_of_any h
  obtain ⟨m, hm, h⟩ := Except.exists_of_any h
  exact ⟨s₀, p, m, hs, hp, hm, of_decide_eq_true h⟩

end Session
end LoopNest
