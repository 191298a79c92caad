import LoopNest.Function.Registry
import LoopNest.OrderedMap
import Mathlib.Data.List.Sort

/-! Maps by their look-ups: maps with the same look-ups are equal, and a map lies within another one
that has all its entries. Loading a manifest into a table of functions leaves the table as it is, or
adds all functions of the manifest. -/
namespace LoopNest
namespace OrderedMap

variable {κ ν : Type} {cmp : κ → κ → Ordering} {m n : OrderedMap cmp ν}

/-- All entries of a map are entries of another one. -/
def Within (m n : OrderedMap cmp ν) : Prop := ∀ k v, m.find? k = some v → n.find? k = some v

theorem Within.refl (m : OrderedMap cmp ν) : m.Within m := fun _ _ h => h

variable [Std.LawfulEqCmp cmp]

theorem find?_eq_some_iff {k : κ} {v : ν} : m.find? k = some v ↔ (k, v) ∈ m.entries := by
  rw [find?, Option.map_eq_some_iff]
  constructor
  · rintro ⟨⟨k', v'⟩, hfind, rfl⟩
    have hk : cmp k' k = .eq := by simpa using List.find?_some hfind
    rw [← Std.LawfulEqCmp.eq_of_compare hk]
    exact List.mem_of_find?_eq_some hfind
  · intro hmem
    obtain ⟨before, after, hsplit⟩ := List.append_of_mem hmem
    have hordered := m.ordered
    rw [hsplit, List.pairwise_append] at hordered
    refine ⟨(k, v), ?_, rfl⟩
    rw [hsplit, List.find?_append]
    -- the entries before have smaller keys
    have hnone : before.find? (fun e => cmp e.1 k == .eq) = none := by
      rw [List.find?_eq_none]
      intro e he
      simp [hordered.2.2 e he (k, v) List.mem_cons_self]
    rw [hnone, Option.none_or, List.find?_cons_of_pos]
    simp [Std.ReflCmp.compare_self]

variable [Std.TransCmp cmp]

theorem eq_of_find? (h : ∀ k, m.find? k = n.find? k) : m = n := by
  have hirrefl : Std.Irrefl fun a b : κ × ν => cmp a.1 b.1 = .lt :=
    ⟨fun a hlt => by simp [Std.ReflCmp.compare_self] at hlt⟩
  have hantisymm : Std.Antisymm fun a b : κ × ν => cmp a.1 b.1 = .lt := by
    refine ⟨fun a b hlt hgt => ?_⟩
    rw [Std.OrientedCmp.gt_of_lt hlt] at hgt
    cases hgt
  apply ext
  apply m.ordered.eq_of_mem_iff n.ordered
  rintro ⟨k, v⟩
  rw [← find?_eq_some_iff, ← find?_eq_some_iff, h]

theorem Within.antisymm (h : m.Within n) (h' : n.Within m) : m = n :=
  eq_of_find? fun k => Option.ext fun v => ⟨h k v, h' k v⟩

/-- An entry under a new key changes no look-up of the smaller map. -/
theorem Within.insert (h : m.Within n) {k : κ} (hk : m.contains k = false) (v : ν) :
    m.Within (n.insert k v) := by
  intro k' v' hf
  by_cases heq : cmp k k' = .eq
  · rw [contains, Std.LawfulEqCmp.eq_of_compare heq, hf] at hk
    cases hk
  · rw [find?_insert_of_ne n v heq, h k' v' hf]

end OrderedMap

namespace Registry

/-- A step that fails passes on the table as it has made it. -/
theorem run_bind {α β : Type} (x : Loading α) (f : α → Loading β) (r : Registry) :
    (x >>= f).run.run r =
      match x.run.run r with
      | (.ok a, r') => (f a).run.run r'
      | (.error fault, r') => (.error fault, r') := by
  rw [ExceptT.run_bind, StateT.run_bind]
  rcases x.run.run r with ⟨a | fault, r'⟩
  · rfl
  · rfl

/-- The first name that the table or an earlier function of the list has already. -/
def firstDuplicate? (r : Registry) (seen : List String) : Manifest → Option String
  | [] => none
  | f :: fs =>
    if r.contains f.id || seen.contains f.id then some f.id
    else firstDuplicate? r (f.id :: seen) fs

/-- The search for a name that is taken changes nothing, whether it finds one or not. -/
theorem checkNames_run (r : Registry) (seen : List String) (fs : Manifest) :
    (checkNames seen fs).run.run r =
      (match r.firstDuplicate? seen fs with
        | some id => .error (.duplicate id)
        | none => .ok (), r) := by
  induction fs generalizing seen with
  | nil => rfl
  | cons f fs ih =>
    rw [checkNames, firstDuplicate?, run_bind]
    change (if r.contains f.id || seen.contains f.id then _ else _ : Loading Unit).run.run r = _
    split
    · rfl
    · exact ih (f.id :: seen)

/-- Adding functions does not fail. -/
theorem forM_add_run (r : Registry) (fs : Manifest) :
    (fs.forM fun f => (modify (add · f) : Loading Unit)).run.run r = (.ok (), r.addAll fs) := by
  induction fs generalizing r with
  | nil => rfl
  | cons f fs ih =>
    rw [List.forM, run_bind]
    exact ih (r.add f)

theorem load_eq (r : Registry) (text : String) :
    r.load text =
      match Manifest.ofText? text with
      | none => (.error .malformed, r)
      | some fs =>
        match r.firstDuplicate? [] fs with
        | some id => (.error (.duplicate id), r)
        | none => (.ok fs.length, r.addAll fs) := by
  rw [load, loadText]
  cases Manifest.ofText? text with
  | none => rfl
  | some fs =>
    simp only [run_bind, checkNames_run]
    cases r.firstDuplicate? [] fs with
    | some id => rfl
    | none =>
      simp only [forM_add_run]
      rfl

/-- A manifest is refused and the table stays, or all functions of the manifest are added. -/
theorem load_cases (r : Registry) (text : String) :
    (∃ fault, r.load text = (.error fault, r)) ∨
      ∃ fs, Manifest.ofText? text = some fs ∧ r.firstDuplicate? [] fs = none ∧
        r.load text = (.ok fs.length, r.addAll fs) := by
  rw [load_eq]
  cases Manifest.ofText? text with
  | none => exact .inl ⟨_, rfl⟩
  | some fs =>
    cases hdup : r.firstDuplicate? [] fs with
    | some id => exact .inl ⟨.duplicate id, by simp only [hdup]⟩
    | none => exact .inr ⟨fs, rfl, hdup, by simp only [hdup]⟩

theorem contains_of_firstDuplicate? {r : Registry} {seen : List String} {fs : List Signature}
    (h : r.firstDuplicate? seen fs = none) : ∀ f ∈ fs, r.contains f.id = false := by
  induction fs generalizing seen with
  | nil => exact List.forall_mem_nil _
  | cons f fs ih =>
    rw [firstDuplicate?] at h
    split at h
    · cases h
    · rename_i hnew
      rw [Bool.or_eq_true, not_or, Bool.not_eq_true] at hnew
      exact List.forall_mem_cons.2 ⟨hnew.1, ih h⟩

theorem within_addAll {r r' : Registry} (h : r.Within r') {fs : List Signature}
    (hnew : ∀ f ∈ fs, r.contains f.id = false) : r.Within (r'.addAll fs) := by
  induction fs generalizing r' with
  | nil => exact h
  | cons f fs ih =>
    obtain ⟨hf, hfs⟩ := List.forall_mem_cons.1 hnew
    exact ih (h.insert hf f) hfs

/-- Loading a manifest keeps the functions that are there. -/
theorem within_load {r r' : Registry} {text : String} {result : Except ManifestFault Nat}
    (h : r.load text = (result, r')) : r.Within r' := by
  rcases load_cases r text with ⟨fault, hload⟩ | ⟨fs, -, hdup, hload⟩
  · cases hload.symm.trans h
    exact .refl r
  · cases hload.symm.trans h
    exact within_addAll (.refl r) (contains_of_firstDuplicate? hdup)

end Registry
end LoopNest
