import LoopNest.Proofs.Carriers
import LoopNest.Proofs.Expressions

/-! Agreement of inputs on their carriers. Each input is compared with the first one that came up
under the same axes, so the map is there just if no two inputs of the module disagree; it then holds
what the inputs give and nothing else. Otherwise two inputs that disagree are reported. -/
namespace LoopNest

namespace StampedExpr

/-- The input that a node reads. -/
def inputUse? : StampedExpr → Option InputUse
  | .input m path => some ⟨path, m.stamp.axes, m.span⟩
  | _ => none

/-- The inputs that an expression reads are those of its nodes. -/
theorem inputUses_eq_filterMap (e : StampedExpr) :
    inputUses e = e.postorder.filterMap inputUse? := by
  induction e using Expr.induction with
  | constant | input | ref => rfl
  | call m func args ih =>
    rw [inputUses, inputUsesAll_eq, Expr.filterMap_postorder_call rfl]
    exact List.flatMap_congr ih
  | tuple m elems ih =>
    rw [inputUses, inputUsesAll_eq, Expr.filterMap_postorder_tuple rfl]
    exact List.flatMap_congr ih
  | select m c t f hc ht hf => rw [inputUses, Expr.filterMap_postorder_select rfl, hc, ht, hf]
  | reduce m op reduced arg ih => rw [inputUses, Expr.filterMap_postorder_reduce rfl, ih]

theorem mem_inputUses {e : StampedExpr} {u : InputUse} : u ∈ inputUses e ↔
    ∃ m path, .input m path ∈ e.postorder ∧ u = ⟨path, m.stamp.axes, m.span⟩ := by
  rw [inputUses_eq_filterMap, List.mem_filterMap]
  constructor
  · rintro ⟨x, hx, hu⟩
    cases x with
    | input m path => exact ⟨m, path, hx, (Option.some.inj hu).symm⟩
    | _ => cases hu
  · rintro ⟨m, path, hmem, rfl⟩
    exact ⟨_, hmem, rfl⟩

end StampedExpr

namespace StampedModule

/-- A node in the body of a declaration reads an input. -/
def Reads (sm : StampedModule) (d : StampedDecl) (m : Mark) (path : FieldPath) : Prop :=
  d ∈ sm.decls ∧ .input m path ∈ d.body.postorder

theorem Reads.mem_inputUses {sm : StampedModule} {d : StampedDecl} {m : Mark} {path : FieldPath}
    (h : sm.Reads d m path) : ⟨path, m.stamp.axes, m.span⟩ ∈ sm.inputUses :=
  List.mem_flatMap.2 ⟨d, h.1, StampedExpr.mem_inputUses.2 ⟨m, path, h.2, rfl⟩⟩

theorem exists_reads {sm : StampedModule} {u : InputUse} (h : u ∈ sm.inputUses) :
    ∃ d m path, sm.Reads d m path ∧ u = ⟨path, m.stamp.axes, m.span⟩ := by
  obtain ⟨d, hd, hu⟩ := List.mem_flatMap.1 h
  obtain ⟨m, path, hmem, rfl⟩ := StampedExpr.mem_inputUses.1 hu
  exact ⟨d, m, path, ⟨hd, hmem⟩, rfl⟩

end StampedModule

namespace Carrier

variable {sm : StampedModule}

/-- Starts of vectors that are equal are equally long. -/
theorem eq_of_take_eq {α : Type} {l l' : List α} {k k' : Nat} (hk : k ≤ l.length)
    (hk' : k' ≤ l'.length) (h : l.take k = l'.take k') : k = k' := by
  have := congrArg List.length h
  rwa [List.length_take, List.length_take, Nat.min_eq_left hk, Nat.min_eq_left hk'] at this

/-- Two references disagree: their axes begin alike, and their paths do not. -/
structure Disagree (m₁ m₂ : Mark) (path₁ path₂ : FieldPath) (k : Nat) : Prop where
  pos : 0 < k
  first : k ≤ m₁.stamp.axes.length ∧ k ≤ path₁.length
  second : k ≤ m₂.stamp.axes.length ∧ k ≤ path₂.length
  axes : m₁.stamp.axes.take k = m₂.stamp.axes.take k
  paths : path₁.take k ≠ path₂.take k

/-- Each carrier that was noted is the start of an input's path, with where it came up. -/
def Sighted (sm : StampedModule) (seen : Sightings) : Prop :=
  ∀ axes s, seen.find? axes = some s → ∃ d m path k, sm.Reads d m path ∧ 0 < k ∧
    k ≤ m.stamp.axes.length ∧ k ≤ path.length ∧ axes = m.stamp.axes.take k ∧
    s = ⟨path.take k, path, d.name, m.span⟩

/-- The report of two references that disagree. -/
def Reports (sm : StampedModule) (e : Diagnostic) : Prop :=
  ∃ d₁ m₁ path₁ d₂ m₂ path₂ k, sm.Reads d₁ m₁ path₁ ∧ sm.Reads d₂ m₂ path₂ ∧
    Disagree m₁ m₂ path₁ path₂ k ∧
    e = (((Fault.ambiguousCarrier (m₂.stamp.axes.take k) (path₁.take k) path₁ (path₂.take k)
        path₂).diagnose m₂.span).withRelated m₁.span
          ("`" ++ path₁.render ++ "` first seen here, in `" ++ d₁.name ++ "`")).inDecl d₂.name

theorem ends_note {d : StampedDecl} {m : Mark} {path : FieldPath} (hread : sm.Reads d m path)
    {k : Nat} (hk : 0 < k) (ha : k ≤ m.stamp.axes.length) (hp : k ≤ path.length) {seen : Sightings}
    (hseen : Sighted sm seen) :
    Except.Ends (Sighted sm) (Reports sm)
      (note d.name ⟨path, m.stamp.axes, m.span⟩ seen k) := by
  rw [note]
  split
  · intro axes s hs
    by_cases hne : m.stamp.axes.take k = axes
    · subst hne
      rw [OrderedMap.find?_insert_self] at hs
      cases hs
      exact ⟨d, m, path, k, hread, hk, ha, hp, rfl, rfl⟩
    · rw [OrderedMap.find?_insert_of_ne _ _ (compare_ne_of_ne hne)] at hs
      exact hseen axes s hs
  · rename_i prev hprev
    split
    · exact hseen
    · rename_i hdiff
      obtain ⟨d₁, m₁, path₁, k₁, hread₁, hk₁, ha₁, hp₁, haxes, rfl⟩ := hseen _ _ hprev
      obtain rfl := eq_of_take_eq ha ha₁ haxes
      exact ⟨d₁, m₁, path₁, d, m, path, k, hread₁, hread,
        ⟨hk, ⟨ha₁, hp₁⟩, ⟨ha, hp⟩, haxes.symm, hdiff⟩, rfl⟩

theorem ends_noteUse {d : StampedDecl} {m : Mark} {path : FieldPath} (hread : sm.Reads d m path)
    {seen : Sightings} (hseen : Sighted sm seen) :
    Except.Ends (Sighted sm) (Reports sm) (noteUse d.name seen ⟨path, m.stamp.axes, m.span⟩) := by
  refine foldlM_ends (fun k hk seen hseen => ?_) hseen
  have hk := List.mem_range'_1.1 hk
  simp only [depth] at hk
  exact ends_note hread (by omega) (by omega) (by omega) hseen

theorem ends_noteDecl {d : StampedDecl} (hd : d ∈ sm.decls) {seen : Sightings}
    (hseen : Sighted sm seen) : Except.Ends (Sighted sm) (Reports sm) (noteDecl seen d) := by
  refine foldlM_ends (fun u hu seen hseen => ?_) hseen
  obtain ⟨m, path, hmem, rfl⟩ := StampedExpr.mem_inputUses.1 hu
  exact ends_noteUse ⟨hd, hmem⟩ hseen

end Carrier

namespace CarrierMap

open Carrier

/-- Where there is no map, two references that disagree are reported. -/
theorem reports_of_ofModule {sm : StampedModule} {e : Diagnostic} (h : ofModule sm = .error e) :
    Reports sm e := by
  have hnone : Sighted sm .empty := fun _ _ hs => nomatch hs
  have hends := foldlM_ends (fun d hd _ hs => ends_noteDecl hd hs) hnone
  rcases Except.bind_eq_error.1 h with hfold | ⟨_, -, hok⟩
  · rw [hfold] at hends
    exact hends
  · cases hok

theorem coherent_iff {sm : StampedModule} : Coherent sm.inputUses ↔
    ∀ d₁ m₁ path₁ d₂ m₂ path₂, sm.Reads d₁ m₁ path₁ → sm.Reads d₂ m₂ path₂ →
      ∀ k, 1 ≤ k → k ≤ m₁.stamp.axes.length → k ≤ path₁.length → k ≤ m₂.stamp.axes.length →
        k ≤ path₂.length → m₁.stamp.axes.take k = m₂.stamp.axes.take k →
          path₁.take k = path₂.take k := by
  constructor
  · intro h d₁ m₁ path₁ d₂ m₂ path₂ h₁ h₂ k hk ha₁ hp₁ ha₂ hp₂ haxes
    exact h _ h₁.mem_inputUses _ h₂.mem_inputUses _ (mem_offers.2 ⟨k, hk, ha₁, hp₁, rfl⟩) _
      (mem_offers.2 ⟨k, hk, ha₂, hp₂, rfl⟩) haxes
  · intro h u hu v hv p hp q hq haxes
    obtain ⟨d₁, m₁, path₁, h₁, rfl⟩ := StampedModule.exists_reads hu
    obtain ⟨d₂, m₂, path₂, h₂, rfl⟩ := StampedModule.exists_reads hv
    obtain ⟨k, hk, ha₁, hp₁, rfl⟩ := mem_offers.1 hp
    obtain ⟨k₂, -, ha₂, hp₂, rfl⟩ := mem_offers.1 hq
    obtain rfl := eq_of_take_eq ha₁ ha₂ haxes
    exact h d₁ m₁ path₁ d₂ m₂ path₂ h₁ h₂ k hk ha₁ hp₁ ha₂ hp₂ haxes

theorem Records.mem_entries_iff {sm : StampedModule} {m : CarrierMap} (h : m.Records sm.inputUses)
    {axes : Axes} {carrier : FieldPath} : (axes, carrier) ∈ m.entries ↔
      ∃ d mark path k, sm.Reads d mark path ∧ 1 ≤ k ∧ k ≤ mark.stamp.axes.length ∧
        k ≤ path.length ∧ axes = mark.stamp.axes.take k ∧ carrier = path.take k := by
  rw [← OrderedMap.find?_eq_some_iff]
  constructor
  · intro hfind
    obtain ⟨u, hu, ho⟩ := h.only axes carrier hfind
    obtain ⟨d, mark, path, hread, rfl⟩ := StampedModule.exists_reads hu
    obtain ⟨k, hk, ha, hp, he⟩ := mem_offers.1 ho
    cases he
    exact ⟨d, mark, path, k, hread, hk, ha, hp, rfl, rfl⟩
  · rintro ⟨d, mark, path, k, hread, hk, ha, hp, rfl, rfl⟩
    exact h.find?_of_mem hread.mem_inputUses hk ha hp

/-- The carriers of a module are found just if any two references agree. They are then the starts of
the paths of all references, and those of a start of the axes are starts of one another. If two
references disagree, these are named. -/
theorem ofModule_holds_agreed_carriers (sm : StampedModule) :
    ((∃ m, ofModule sm = .ok m) ↔
      ∀ d₁ m₁ path₁ d₂ m₂ path₂, sm.Reads d₁ m₁ path₁ → sm.Reads d₂ m₂ path₂ →
        ∀ k, 1 ≤ k → k ≤ m₁.stamp.axes.length → k ≤ path₁.length → k ≤ m₂.stamp.axes.length →
          k ≤ path₂.length → m₁.stamp.axes.take k = m₂.stamp.axes.take k →
            path₁.take k = path₂.take k) ∧
    (∀ m, ofModule sm = .ok m →
      (∀ axes carrier, (axes, carrier) ∈ m.entries ↔
        ∃ d mark path k, sm.Reads d mark path ∧ 1 ≤ k ∧ k ≤ mark.stamp.axes.length ∧
          k ≤ path.length ∧ axes = mark.stamp.axes.take k ∧ carrier = path.take k) ∧
      ∀ axes carrier, m.find? axes = some carrier → carrier.length = axes.length ∧
        ∀ k, axes.take k ≠ [] → m.find? (axes.take k) = some (carrier.take k)) ∧
    ∀ e, ofModule sm = .error e → e.code.map Code.text = some "E0201" ∧ Reports sm e := by
  refine ⟨exists_ofModule_iff.trans coherent_iff, fun m hm => ?_, fun e he => ?_⟩
  · have hrecords := records_ofModule hm
    refine ⟨fun _ _ => hrecords.mem_entries_iff, fun axes carrier hfind =>
      ⟨hrecords.length_eq hfind, fun k hne => hrecords.find?_take hfind ?_⟩⟩
    rcases Nat.eq_zero_or_pos k with rfl | hk
    · exact absurd List.take_zero hne
    · exact hk
  · refine ⟨?_, reports_of_ofModule he⟩
    obtain ⟨d₁, m₁, path₁, d₂, m₂, path₂, k, -, -, -, rfl⟩ := reports_of_ofModule he
    rfl

end CarrierMap
end LoopNest
