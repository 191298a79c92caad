import LoopNest.Proofs.Function.Canonical

/-! Loading manifests, one after the other. A manifest comes in as a whole or not at all: it is
refused just if one of its names is taken, the fault names the first one that is, and the table is
then the one from before. Manifests that load in one order load in the other, too, and the table is
the same. -/
namespace LoopNest

namespace OrderedMap

variable {κ ν : Type} {cmp : κ → κ → Ordering} {m n : OrderedMap cmp ν}

/-- An entry with a new key comes to the others. -/
theorem place_perm {k : κ} {v : ν} {es : List (κ × ν)} (h : ∀ e ∈ es, cmp k e.1 ≠ .eq) :
    (place cmp k v es).Perm ((k, v) :: es) := by
  induction es with
  | nil => exact .refl _
  | cons e es ih =>
    obtain ⟨he, hes⟩ := List.forall_mem_cons.1 h
    rw [place]
    cases hk : cmp k e.1 with
    | lt => exact .refl _
    | eq => exact absurd hk he
    | gt => exact ((ih hes).cons e).trans (.swap _ _ _)

variable [Std.TransCmp cmp]

theorem entries_insert_perm {k : κ} (hk : m.contains k = false) (v : ν) :
    (m.insert k v).entries.Perm ((k, v) :: m.entries) := by
  refine place_perm fun e he heq => ?_
  rw [contains, find?, Option.isSome_map, Option.isSome_eq_false_iff, Option.isNone_iff_eq_none,
    List.find?_eq_none] at hk
  exact hk e he (by simp [Std.OrientedCmp.eq_symm heq])

variable [Std.LawfulEqCmp cmp]

theorem contains_insert (m : OrderedMap cmp ν) (k k' : κ) (v : ν) :
    (m.insert k v).contains k' = true ↔ k = k' ∨ m.contains k' = true := by
  by_cases h : k = k'
  · subst h
    simp [contains]
  · have hne : cmp k k' ≠ .eq := fun heq => h (Std.LawfulEqCmp.eq_of_compare heq)
    simp [contains, find?_insert_of_ne m v hne, h]

/-- Maps with the same entries are equal: the order of the entries is that of their keys. -/
theorem eq_of_perm (h : m.entries.Perm n.entries) : m = n := by
  refine eq_of_find? fun k => Option.ext fun v => ?_
  rw [find?_eq_some_iff, find?_eq_some_iff, h.mem_iff]

end OrderedMap

namespace Registry

variable {r r' : Registry} {fs : List Signature}

/-- The table after tries to load manifests, one after the other. -/
def attemptAll (r : Registry) (texts : List String) : Registry := texts.foldl attempt r

/-- The name of a function is taken, by the table or by a function before it in its manifest. -/
def Taken (r : Registry) (before : List Signature) (f : Signature) : Prop :=
  r.contains f.id = true ∨ ∃ g ∈ before, g.id = f.id

/-- The first function of a manifest whose name is taken has this name. -/
def FirstTaken (r : Registry) (fs : Manifest) (id : String) : Prop :=
  ∃ before f after, fs = before ++ f :: after ∧ f.id = id ∧ r.Taken before f ∧
    ∀ pre g post, before = pre ++ g :: post → ¬ r.Taken pre g

/-- The names of a manifest are new to a table, and each stands once. -/
structure Fresh (r : Registry) (fs : Manifest) : Prop where
  distinct : (fs.map Signature.id).Nodup
  new : ∀ f ∈ fs, r.contains f.id = false

theorem nodup_of_firstDuplicate? {seen : List String} (h : r.firstDuplicate? seen fs = none) :
    (fs.map Signature.id).Nodup ∧ ∀ f ∈ fs, f.id ∉ seen := by
  induction fs generalizing seen with
  | nil => exact ⟨List.nodup_nil, List.forall_mem_nil _⟩
  | cons f fs ih =>
    rw [firstDuplicate?] at h
    split at h
    · cases h
    · rename_i hnew
      rw [Bool.or_eq_true, not_or] at hnew
      obtain ⟨hdistinct, hseen⟩ := ih h
      refine ⟨List.nodup_cons.2 ⟨fun hmem => ?_, hdistinct⟩, List.forall_mem_cons.2
        ⟨by simpa using hnew.2, fun g hg hmem => hseen g hg (List.mem_cons_of_mem _ hmem)⟩⟩
      obtain ⟨g, hg, heq⟩ := List.mem_map.1 hmem
      exact hseen g hg (heq ▸ List.mem_cons_self)

theorem firstDuplicate?_eq_none_iff : r.firstDuplicate? [] fs = none ↔ r.Fresh fs :=
  ⟨fun h => ⟨(nodup_of_firstDuplicate? h).1, contains_of_firstDuplicate? h⟩,
    fun h => firstDuplicate?_eq_none h.new (fun _ _ => List.not_mem_nil) h.distinct⟩

section Search

variable {done : List Signature} {f : Signature} {id : String}

/-- The first function that is taken, where the search has passed some functions already. -/
def FirstTakenAfter (r : Registry) (done fs : List Signature) (id : String) : Prop :=
  ∃ before f after, fs = before ++ f :: after ∧ f.id = id ∧ r.Taken (done ++ before) f ∧
    ∀ pre g post, before = pre ++ g :: post → ¬ r.Taken (done ++ pre) g

theorem firstTakenAfter_cons_of_taken (hf : r.Taken done f) :
    r.FirstTakenAfter done (f :: fs) id ↔ f.id = id := by
  constructor
  · rintro ⟨before, f', after, hsplit, hid, -, hfirst⟩
    -- nothing can stand before a function that is taken already
    cases before with
    | nil =>
      cases hsplit
      exact hid
    | cons g before =>
      cases hsplit
      exact absurd (by rwa [List.append_nil]) (hfirst [] f before rfl)
  · intro hid
    refine ⟨[], f, fs, rfl, hid, by rwa [List.append_nil], fun pre g post h => ?_⟩
    simp at h

theorem firstTakenAfter_cons_of_not_taken (hf : ¬ r.Taken done f) :
    r.FirstTakenAfter done (f :: fs) id ↔ r.FirstTakenAfter (done ++ [f]) fs id := by
  simp only [FirstTakenAfter, List.append_assoc, List.singleton_append]
  constructor
  · rintro ⟨before, f', after, hsplit, hid, htaken, hfirst⟩
    cases before with
    | nil =>
      cases hsplit
      exact absurd (by rwa [List.append_nil] at htaken) hf
    | cons f'' before =>
      cases hsplit
      exact ⟨before, f', after, rfl, hid, htaken, fun pre g post h =>
        hfirst (f :: pre) g post (by rw [h, List.cons_append])⟩
  · rintro ⟨before, f', after, rfl, hid, htaken, hfirst⟩
    refine ⟨f :: before, f', after, rfl, hid, htaken, fun pre g post h => ?_⟩
    cases pre with
    | nil =>
      cases h
      rwa [List.append_nil]
    | cons f'' pre =>
      cases h
      exact hfirst pre g post rfl

/-- The search goes through a manifest with the names of the functions that it has passed. -/
theorem firstDuplicate?_eq_some_after :
    r.firstDuplicate? (done.reverse.map Signature.id) fs = some id ↔
      r.FirstTakenAfter done fs id := by
  induction fs generalizing done with
  | nil => simp [firstDuplicate?, FirstTakenAfter]
  | cons f fs ih =>
    have htaken : (r.contains f.id || (done.reverse.map Signature.id).contains f.id) = true ↔
        r.Taken done f := by
      simp [Taken]
    rw [firstDuplicate?]
    by_cases hf : r.Taken done f
    · rw [if_pos (htaken.2 hf), firstTakenAfter_cons_of_taken hf, Option.some.injEq]
    · rw [if_neg fun h => hf (htaken.1 h), firstTakenAfter_cons_of_not_taken hf, ← ih,
        List.reverse_concat, List.map_cons]

end Search

theorem firstDuplicate?_eq_some_iff {id : String} :
    r.firstDuplicate? [] fs = some id ↔ r.FirstTaken fs id :=
  @firstDuplicate?_eq_some_after r fs [] id

theorem load_eq_ok_iff {text : String} {count : Nat} :
    r.load text = (.ok count, r') ↔
      ∃ fs, Manifest.ofText? text = some fs ∧ r.Fresh fs ∧ count = fs.length ∧
        r' = r.addAll fs := by
  rw [load_eq]
  cases Manifest.ofText? text with
  | none => simp
  | some fs =>
    simp only [Option.some.injEq, exists_eq_left', ← firstDuplicate?_eq_none_iff]
    cases r.firstDuplicate? [] fs with
    | some id => simp
    | none => simp [eq_comm]

theorem load_eq_error_iff {text : String} (hread : Manifest.ofText? text = some fs)
    {fault : ManifestFault} :
    (r.load text).1 = .error fault ↔ ∃ id, fault = .duplicate id ∧ r.FirstTaken fs id := by
  rw [load_eq, hread]
  simp only [← firstDuplicate?_eq_some_iff]
  cases r.firstDuplicate? [] fs with
  | some id => simp [eq_comm]
  | none => simp

/-- A well-formed manifest is refused just if its names are not all new. -/
theorem load_refused_iff {text : String} (hread : Manifest.ofText? text = some fs) :
    (∃ fault, (r.load text).1 = .error fault) ↔ ¬ r.Fresh fs := by
  rw [← firstDuplicate?_eq_none_iff, load_eq, hread]
  cases hdup : r.firstDuplicate? [] fs with
  | some id => simp [hdup]
  | none => simp [hdup]

theorem contains_addAll (r : Registry) (fs : List Signature) (id : String) :
    (r.addAll fs).contains id = true ↔ r.contains id = true ∨ ∃ f ∈ fs, f.id = id := by
  induction fs generalizing r with
  | nil => simp [addAll]
  | cons f fs ih =>
    change ((r.add f).addAll fs).contains id = true ↔ _
    rw [ih, add, OrderedMap.contains_insert]
    simp [or_assoc, or_left_comm]

/-- New functions come to those that are there. -/
theorem Fresh.entries_perm (h : r.Fresh fs) :
    (r.addAll fs).entries.Perm (r.entries ++ fs.map fun f => (f.id, f)) := by
  induction fs generalizing r with
  | nil => simp [addAll]
  | cons f fs ih =>
    obtain ⟨hf, hnew⟩ := List.forall_mem_cons.1 h.new
    obtain ⟨hdistinct, hfs⟩ := List.nodup_cons.1 h.distinct
    have hrest : (r.add f).Fresh fs := by
      refine ⟨hfs, fun g hg => ?_⟩
      rw [← Bool.not_eq_true, add, OrderedMap.contains_insert, not_or, Bool.not_eq_true]
      exact ⟨fun heq => hdistinct (heq ▸ List.mem_map_of_mem hg), hnew g hg⟩
    have hadd := (OrderedMap.entries_insert_perm hf f).append_right (fs.map fun f => (f.id, f))
    exact ((ih hrest).trans hadd).trans List.perm_middle.symm

/-- Manifests that do not clash come in in any order. -/
theorem Fresh.swap {gs : List Signature} (h : r.Fresh fs) (h' : (r.addAll fs).Fresh gs) :
    r.Fresh gs ∧ (r.addAll gs).Fresh fs ∧ (r.addAll gs).addAll fs = (r.addAll fs).addAll gs := by
  have hapart : ∀ g ∈ gs, r.contains g.id = false ∧ ∀ f ∈ fs, f.id ≠ g.id := by
    intro g hg
    have hno := h'.new g hg
    rw [← Bool.not_eq_true, contains_addAll, not_or, Bool.not_eq_true] at hno
    exact ⟨hno.1, fun f hf heq => hno.2 ⟨f, hf, heq⟩⟩
  have hgs : r.Fresh gs := ⟨h'.distinct, fun g hg => (hapart g hg).1⟩
  have hfs : (r.addAll gs).Fresh fs := by
    refine ⟨h.distinct, fun f hf => ?_⟩
    rw [← Bool.not_eq_true, contains_addAll, not_or, Bool.not_eq_true]
    exact ⟨h.new f hf, fun ⟨g, hg, heq⟩ => (hapart g hg).2 f hf heq.symm⟩
  refine ⟨hgs, hfs, OrderedMap.eq_of_perm ?_⟩
  -- both tables have the entries of the first one and of both manifests
  have hone := hfs.entries_perm.trans (hgs.entries_perm.append_right _)
  have hother := h'.entries_perm.trans (h.entries_perm.append_right _)
  rw [List.append_assoc] at hone hother
  exact (hone.trans (List.perm_append_comm.append_left _)).trans hother.symm

theorem not_fresh_iff :
    ¬ r.Fresh fs ↔ ¬ (fs.map Signature.id).Nodup ∨ ∃ f ∈ fs, r.contains f.id = true := by
  constructor
  · intro hno
    by_contra hclear
    rw [not_or, not_not, not_exists] at hclear
    exact hno ⟨hclear.1, fun f hf => by simpa using fun ht => hclear.2 f ⟨hf, ht⟩⟩
  · rintro (hno | ⟨f, hf, ht⟩) hfresh
    · exact hno hfresh.distinct
    · rw [hfresh.new f hf] at ht
      cases ht

/-- Loading a manifest is all or nothing. -/
structure AllOrNothing (r : Registry) (text : String) : Prop where
  /-- It fails and the table after it is the one before it, or the functions of the manifest, and no
  others, come to those of the table, which stay as they are. -/
  effect : (∃ fault, r.load text = (.error fault, r)) ∨
    ∃ fs r', Manifest.ofText? text = some fs ∧ r.load text = (.ok fs.length, r') ∧
      r'.entries.Perm (r.entries ++ fs.map fun f => (f.id, f)) ∧ r.Within r'
  /-- A well-formed manifest is refused just if a name stands in it twice or is in the table. -/
  refused : ∀ fs, Manifest.ofText? text = some fs →
    ((∃ fault, (r.load text).1 = .error fault) ↔
      ¬ (fs.map Signature.id).Nodup ∨ ∃ f ∈ fs, r.contains f.id = true)
  /-- The fault is the name of the first function whose name is taken. -/
  reported : ∀ fs, Manifest.ofText? text = some fs →
    ∀ fault, (r.load text).1 = .error fault ↔ ∃ id, fault = .duplicate id ∧ r.FirstTaken fs id

theorem allOrNothing (r : Registry) (text : String) : r.AllOrNothing text := by
  refine ⟨?_, fun fs hread => ?_, fun fs hread fault => load_eq_error_iff hread⟩
  · rcases load_cases r text with hrefused | ⟨fs, hread, hdup, hload⟩
    · exact .inl hrefused
    · have hfresh := firstDuplicate?_eq_none_iff.1 hdup
      exact .inr ⟨fs, _, hread, hload, hfresh.entries_perm, within_load hload⟩
  · rw [load_refused_iff hread, not_fresh_iff]

/-- A function that is in the table stays there, whatever is loaded or refused after it. -/
theorem within_attemptAll (r : Registry) (texts : List String) : r.Within (r.attemptAll texts) := by
  induction texts generalizing r with
  | nil => exact .refl r
  | cons text texts ih =>
    have hkept : r.Within (r.attempt text) := within_load rfl
    exact fun id f hf => ih (r.attempt text) id f (hkept id f hf)

/-- After any manifests, accepted or refused, the functions of the first table are as they were and
the next manifest is loaded all or nothing. Two manifests that load one after the other load in the
other order as well and give the same table. -/
theorem load_all_or_nothing (r : Registry) (texts : List String) :
    r.Within (r.attemptAll texts) ∧ (∀ text, (r.attemptAll texts).AllOrNothing text) ∧
    ∀ text₁ text₂ count₁ count₂ r₁ r₂, r.load text₁ = (.ok count₁, r₁) →
      r₁.load text₂ = (.ok count₂, r₂) →
      ∃ r', r.load text₂ = (.ok count₂, r') ∧ r'.load text₁ = (.ok count₁, r₂) := by
  refine ⟨within_attemptAll r texts, fun text => allOrNothing _ text,
    fun text₁ text₂ count₁ count₂ r₁ r₂ h₁ h₂ => ?_⟩
  obtain ⟨fs, hread₁, hfs, rfl, rfl⟩ := load_eq_ok_iff.1 h₁
  obtain ⟨gs, hread₂, hgs, rfl, rfl⟩ := load_eq_ok_iff.1 h₂
  obtain ⟨hfirst, hsecond, hsame⟩ := hfs.swap hgs
  exact ⟨r.addAll gs, load_eq_ok_iff.2 ⟨gs, hread₂, hfirst, rfl, rfl⟩,
    load_eq_ok_iff.2 ⟨fs, hread₁, hsecond, rfl, hsame.symm⟩⟩

/-- Two functions that are not built in. -/
def clampFunctions : Manifest :=
  [elementwise "clamp" ["value"] .promote, reducer "mean" .promote .zero]

def clampManifest : String :=
  "[[[\"clamp\", \"elementwise\", [\"value\"], false, \"promote\"], " ++
    "[\"mean\", \"reduce\", [\"source\"], false, \"promote\", \"zero\"]]]"

/-- Two functions, the last of which has a name that is built in. -/
def maxFunctions : Manifest :=
  [elementwise "half" ["value"] .promote, ⟨"max", .reduce, ["source"], false, .promote, none⟩]

def maxManifest : String :=
  "[[[\"half\", \"elementwise\", [\"value\"], false, \"promote\"], " ++
    "[\"max\", \"reduce\", [\"source\"], false, \"promote\"]]]"

theorem clamp_all_or_nothing :
    ∃ r₁ r₂ r', builtins.load swapManifest = (.ok 1, r₁) ∧ r₁.load clampManifest = (.ok 2, r₂) ∧
      builtins.load clampManifest = (.ok 2, r') ∧ r'.load swapManifest = (.ok 1, r₂) ∧
      builtins.Within (builtins.attemptAll [swapManifest]) ∧
      builtins.attemptAll [swapManifest] = r₁ ∧ r₁.AllOrNothing maxManifest ∧
      r₁.load maxManifest = (.error (.duplicate "max"), r₁) := by
  have hswap : builtins.Fresh [swap] := firstDuplicate?_eq_none_iff.1 (by decide +kernel)
  have hclamp : (builtins.addAll [swap]).Fresh clampFunctions :=
    firstDuplicate?_eq_none_iff.1 (by decide +kernel)
  have hmax : (builtins.addAll [swap]).FirstTaken maxFunctions "max" :=
    firstDuplicate?_eq_some_iff.1 (by decide +kernel)
  have hread : Manifest.ofText? clampManifest = some clampFunctions := by decide +kernel
  have hreadMax : Manifest.ofText? maxManifest = some maxFunctions := by decide +kernel
  have h₁ : builtins.load swapManifest = (.ok 1, builtins.addAll [swap]) :=
    load_eq_ok_iff.2 ⟨[swap], ofText?_swapManifest, hswap, rfl, rfl⟩
  have h₂ : (builtins.addAll [swap]).load clampManifest = (.ok 2, _) :=
    load_eq_ok_iff.2 ⟨clampFunctions, hread, hclamp, rfl, rfl⟩
  have htable : builtins.attemptAll [swapManifest] = builtins.addAll [swap] := by
    rw [attemptAll, List.foldl_cons, List.foldl_nil, attempt, h₁]
  obtain ⟨hwithin, hnext, hexchange⟩ := load_all_or_nothing builtins [swapManifest]
  obtain ⟨r', h₃, h₄⟩ := hexchange swapManifest clampManifest _ _ _ _ h₁ h₂
  rw [htable] at hnext
  have hfault := ((hnext maxManifest).reported _ hreadMax _).2 ⟨"max", rfl, hmax⟩
  refine ⟨_, _, r', h₁, h₂, h₃, h₄, hwithin, htable, hnext maxManifest, ?_⟩
  -- the name comes last, and the function before it is not in the table
  rcases (hnext maxManifest).effect with ⟨fault, hload⟩ | ⟨fs, r, -, hload, -⟩
  · rw [hload] at hfault
    cases hfault
    exact hload
  · rw [hload] at hfault
    cases hfault

end Registry
end LoopNest
