import LoopNest.Proofs.History

/-! What a run changes. The passes that succeed leave their results, whatever the session held
before, and all else stays. A run that fails adds one diagnostic and marks the session, so a session
is marked just if one of its runs failed. -/
namespace LoopNest

namespace Session

/-- An event is a run that fails. -/
def Fails (s : Session) : Event → Prop
  | .run terminal inlining => failed? (s.run terminal inlining).1 ≠ none
  | .load _ | .replace _ => False

/-- Some run fails in the course of events. -/
def SomeFails (s : Session) (es : List Event) : Prop :=
  ∃ before e rest, es = before ++ e :: rest ∧ (s.afterAll before).Fails e

theorem someFails_cons {s : Session} {e : Event} {es : List Event} :
    s.SomeFails (e :: es) ↔ s.Fails e ∨ (s.after e).SomeFails es := by
  constructor
  · rintro ⟨before, e', rest, hsplit, hfails⟩
    cases before with
    | nil =>
      cases hsplit
      exact .inl hfails
    | cons e'' before =>
      cases hsplit
      exact .inr ⟨before, e', rest, rfl, hfails⟩
  · rintro (hfails | ⟨before, e', rest, rfl, hfails⟩)
    · exact ⟨[], e, es, rfl, hfails⟩
    · exact ⟨e :: before, e', rest, rfl, hfails⟩

/-- A session is marked, and has diagnostics, just if it was before or some condition holds. -/
structure Adds (s : Session) (condition : Prop) (s' : Session) : Prop where
  mark : s'.hasError = true ↔ s.hasError = true ∨ condition
  diagnostics : s'.diagnostics ≠ [] ↔ s.diagnostics ≠ [] ∨ condition

theorem adds_after (s : Session) (e : Event) : s.Adds (s.Fails e) (s.after e) := by
  cases e with
  | run terminal inlining =>
    rw [after, Fails]
    have hran := ran_run s terminal inlining
    generalize failed? (s.run terminal inlining).1 = fails at hran ⊢
    generalize s.run terminal inlining = x at hran ⊢
    cases hran with
    | through _ => exact ⟨by simp [renew], by simp [renew]⟩
    | stopped _ _ _ => exact ⟨by simp, by simp⟩
  | load manifest =>
    exact ⟨by simp [after, loadManifest, Fails], by simp [after, loadManifest, Fails]⟩
  | replace program => exact ⟨by simp [after, Fails], by simp [after, Fails]⟩

theorem adds_afterAll (s : Session) (es : List Event) :
    s.Adds (s.SomeFails es) (s.afterAll es) := by
  induction es generalizing s with
  | nil =>
    have hnone : ¬ s.SomeFails [] := by
      rintro ⟨before, e, rest, hsplit, -⟩
      simp at hsplit
    exact ⟨by simp [afterAll, hnone], by simp [afterAll, hnone]⟩
  | cons e es ih =>
    have hfirst := s.adds_after e
    have hrest := ih (s.after e)
    constructor
    · rw [someFails_cons, ← or_assoc, ← hfirst.mark]
      exact hrest.mark
    · rw [someFails_cons, ← or_assoc, ← hfirst.diagnostics]
      exact hrest.diagnostics

theorem someFails_iff_run {s : Session} {es : List Event} :
    s.SomeFails es ↔ ∃ before terminal inlining rest,
      es = before ++ .run terminal inlining :: rest ∧
        failed? ((s.afterAll before).run terminal inlining).1 ≠ none := by
  constructor
  · rintro ⟨before, e, rest, hsplit, hfails⟩
    cases e with
    | run terminal inlining => exact ⟨before, terminal, inlining, rest, hsplit, hfails⟩
    | load manifest => exact hfails.elim
    | replace program => exact hfails.elim
  · rintro ⟨before, terminal, inlining, rest, hsplit, hfails⟩
    exact ⟨before, .run terminal inlining, rest, hsplit, hfails⟩

/-- A run executes the passes that its aim requires, in order and up to the first that fails, and
reports each of them once. Each one that succeeds leaves what it gives for the program and the
functions of the session, and nothing else changes but for the diagnostic and the mark of a failure.
So along any events a new session is marked just if it has diagnostics, and just if some run
failed. -/
theorem run_changes :
    (∀ (s : Session) (terminal : Pass) (inlining : Bool),
      Ran s (terminal.required.filter fun p => inlining || p != .inline)
        (failed? (s.run terminal inlining).1) (s.run terminal inlining)) ∧
    ∀ (program : Program) (registry : Registry) (provenance : Option Provenance) (es : List Event),
      let s := { ofProgram program registry with provenance := provenance }
      ((s.afterAll es).hasError = true ↔ (s.afterAll es).diagnostics ≠ []) ∧
      ((s.afterAll es).diagnostics ≠ [] ↔ ∃ before terminal inlining rest,
        es = before ++ .run terminal inlining :: rest ∧
          failed? ((s.afterAll before).run terminal inlining).1 ≠ none) := by
  refine ⟨ran_run, fun program registry provenance es => ?_⟩
  intro s
  obtain ⟨hmark, hdiagnostics⟩ := s.adds_afterAll es
  have hmark : (s.afterAll es).hasError = true ↔ s.SomeFails es := by
    rw [hmark]
    simp [s, ofProgram]
  have hdiagnostics : (s.afterAll es).diagnostics ≠ [] ↔ s.SomeFails es := by
    rw [hdiagnostics]
    simp [s, ofProgram]
  exact ⟨hmark.trans hdiagnostics.symm, hdiagnostics.trans someFails_iff_run⟩

end Session
end LoopNest
