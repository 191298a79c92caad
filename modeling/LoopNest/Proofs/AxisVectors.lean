import LoopNest.Axes
import Mathlib.Data.List.Basic
import Mathlib.Data.List.Pairwise

/-! Least upper bounds of axis vectors in the prefix order. -/
namespace LoopNest
namespace Axes

theorem length_le_longest {vectors : List Axes} {v : Axes} (h : v ∈ vectors) :
    v.length ≤ (longest vectors).length := by
  induction vectors with
  | nil => cases h
  | cons a rest ih =>
    rw [longest]
    rcases List.mem_cons.1 h with rfl | h
    · split <;> omega
    · have := ih h
      split <;> omega

theorem longest_mem {vectors : List Axes} (h : vectors ≠ []) : longest vectors ∈ vectors := by
  induction vectors with
  | nil => exact absurd rfl h
  | cons a rest ih =>
    rw [longest]
    split
    · rename_i hlt
      have hne : rest ≠ [] := by
        rintro rfl
        simp [longest] at hlt
      exact List.mem_cons_of_mem _ (ih hne)
    · exact List.mem_cons_self

/-- The bound is one of the vectors, and all of them are prefixes of it. -/
theorem lub_eq_ok_iff {vectors : List Axes} {a : Axes} :
    lub vectors = .ok a ↔ (∀ v ∈ vectors, v <+: a) ∧ (a ∈ vectors ∨ vectors = [] ∧ a = []) := by
  rw [lub]
  split
  · rename_i other hother
    constructor
    · intro h
      cases h
    · rintro ⟨hall, hmem⟩
      have hin := List.mem_of_find?_eq_some hother
      have hnot := List.find?_some hother
      -- the longest vector is a prefix of the bound and at least as long
      have hne : vectors ≠ [] := List.ne_nil_of_mem hin
      have hpre := hall _ (longest_mem hne)
      have ha : a ∈ vectors := hmem.resolve_right fun h => hne h.1
      have heq : longest vectors = a := hpre.eq_of_length_le (length_le_longest ha)
      rw [heq, List.isPrefixOf_iff_prefix.2 (hall other hin)] at hnot
      cases hnot
  · rename_i hnone
    have hall : ∀ v ∈ vectors, v <+: longest vectors := by
      intro v hv
      have := List.find?_eq_none.1 hnone v hv
      simpa using this
    constructor
    · intro h
      cases h
      refine ⟨hall, ?_⟩
      by_cases hne : vectors = []
      · subst hne
        exact .inr ⟨rfl, rfl⟩
      · exact .inl (longest_mem hne)
    · rintro ⟨ha, hmem | ⟨rfl, rfl⟩⟩
      · have hne : vectors ≠ [] := List.ne_nil_of_mem hmem
        rw [(ha _ (longest_mem hne)).eq_of_length_le (length_le_longest hmem)]
      · rfl

theorem prefix_of_lub {vectors : List Axes} {a v : Axes} (h : lub vectors = .ok a)
    (hv : v ∈ vectors) : v <+: a :=
  (lub_eq_ok_iff.1 h).1 v hv

/-- One of the two vectors is a prefix of the other. -/
def Related (a b : Axes) : Prop := a <+: b ∨ b <+: a

/-- The longer of two related vectors is the one that goes on. -/
theorem Related.prefix_of_length_le {a b : Axes} (h : Related a b) (hle : a.length ≤ b.length) :
    a <+: b := by
  rcases h with h | h
  · exact h
  · have heq : b = a := h.eq_of_length_le hle
    exact heq ▸ List.prefix_refl b

instance : Std.Symm Related := ⟨fun _ _ h => h.symm⟩

theorem lub_eq_error {vectors : List Axes} {c : Conflict} (h : lub vectors = .error c) :
    c.candidate = longest vectors ∧ c.other ∈ vectors ∧ ¬ c.other <+: longest vectors := by
  unfold lub at h
  cases hfind : vectors.find? fun v => !v.isPrefixOf (longest vectors) with
  | none =>
    simp only [hfind] at h
    cases h
  | some other =>
    simp only [hfind] at h
    cases h
    have hnot := List.find?_some hfind
    refine ⟨rfl, List.mem_of_find?_eq_some hfind, fun hpre => ?_⟩
    rw [List.isPrefixOf_iff_prefix.2 hpre] at hnot
    cases hnot

/-- The two vectors of a conflict are among those given and not related. -/
theorem conflict_of_lub {vectors : List Axes} {c : Conflict} (h : lub vectors = .error c) :
    c.candidate ∈ vectors ∧ c.other ∈ vectors ∧ ¬ Related c.other c.candidate := by
  obtain ⟨hcandidate, hother, hnot⟩ := lub_eq_error h
  rw [hcandidate]
  refine ⟨longest_mem (List.ne_nil_of_mem hother), hother, fun hrelated => ?_⟩
  exact hnot (hrelated.prefix_of_length_le (length_le_longest hother))

theorem pairwise_related_of_lub {vectors : List Axes} {a : Axes} (h : lub vectors = .ok a) :
    vectors.Pairwise Related :=
  List.pairwise_of_forall_mem_list fun _ hv _ hw =>
    List.prefix_or_prefix_of_prefix (prefix_of_lub h hv) (prefix_of_lub h hw)

/-- Pairwise related vectors have a bound, as a conflict would be among them. -/
theorem exists_lub_of_pairwise {vectors : List Axes} (h : vectors.Pairwise Related) :
    ∃ a, lub vectors = .ok a := by
  cases hlub : lub vectors with
  | ok a => exact ⟨a, rfl⟩
  | error c =>
    obtain ⟨hcandidate, hother, hnot⟩ := conflict_of_lub hlub
    have hrefl : ∀ a ∈ vectors, Related a a := fun a _ => .inl (List.prefix_refl a)
    exact absurd (List.Pairwise.forall_of_forall hrefl h hother hcandidate) hnot

/-- The bound is a prefix of every other bound. -/
theorem lub_prefix_of_bound {vectors : List Axes} {a b : Axes} (h : lub vectors = .ok a)
    (hb : ∀ v ∈ vectors, v <+: b) : a <+: b := by
  rcases (lub_eq_ok_iff.1 h).2 with ha | ⟨-, rfl⟩
  · exact hb a ha
  · exact List.nil_prefix

/-- The bound depends only on which vectors there are. -/
theorem lub_of_same_members {vectors others : List Axes} {a : Axes} (h : lub vectors = .ok a)
    (hsame : ∀ v, v ∈ others ↔ v ∈ vectors) : lub others = .ok a := by
  obtain ⟨hall, hmem⟩ := lub_eq_ok_iff.1 h
  refine lub_eq_ok_iff.2 ⟨fun v hv => hall v ((hsame v).1 hv), ?_⟩
  rcases hmem with ha | ⟨rfl, rfl⟩
  · exact .inl ((hsame a).2 ha)
  · exact .inr ⟨List.eq_nil_iff_forall_not_mem.2 fun v hv => List.not_mem_nil ((hsame v).1 hv), rfl⟩

/-- Vectors have a bound if and only if they are pairwise related. The bound is the least vector of
which all of them are prefixes, whatever their order and however often each occurs. Without a bound,
two of the vectors are reported of which neither is a prefix of the other. -/
theorem lub_is_least_bound (vectors : List Axes) :
    ((∃ a, lub vectors = .ok a) ↔ vectors.Pairwise Related) ∧
    (∀ a, lub vectors = .ok a →
      (∀ v ∈ vectors, v <+: a) ∧
      (∀ b, (∀ v ∈ vectors, v <+: b) → a <+: b) ∧
      ∀ others, (∀ v, v ∈ others ↔ v ∈ vectors) → lub others = .ok a) ∧
    ∀ c, lub vectors = .error c →
      c.candidate ∈ vectors ∧ c.other ∈ vectors ∧ ¬ c.other <+: c.candidate ∧
        ¬ c.candidate <+: c.other := by
  refine ⟨⟨?_, exists_lub_of_pairwise⟩, fun a ha => ?_, fun c hc => ?_⟩
  · rintro ⟨a, ha⟩
    exact pairwise_related_of_lub ha
  · exact ⟨fun v hv => prefix_of_lub ha hv, fun b hb => lub_prefix_of_bound ha hb,
      fun others hsame => lub_of_same_members ha hsame⟩
  · obtain ⟨hcandidate, hother, hnot⟩ := conflict_of_lub hc
    exact ⟨hcandidate, hother, fun h => hnot (.inl h), fun h => hnot (.inr h)⟩

/-- Of two longest vectors the first is the candidate, and the other one the conflict. -/
example : lub [[⟨"a"⟩], [⟨"a"⟩, ⟨"b"⟩], [⟨"a"⟩, ⟨"c"⟩]] =
    .error ⟨[⟨"a"⟩, ⟨"b"⟩], [⟨"a"⟩, ⟨"c"⟩]⟩ := rfl

/-- What a suffix leaves. -/
theorem eq_append_of_dropTail? {a tail rest : Axes} (h : a.dropTail? tail = some rest) :
    a = rest ++ tail := by
  rw [dropTail?] at h
  split at h
  · rename_i hs
    cases h
    conv_lhs => rw [← List.take_append_drop (a.length - tail.length) a]
    rw [hs.2]
  · cases h

end Axes
end LoopNest
