import LoopNest.Carrier
import LoopNest.Proofs.Fallible
import LoopNest.Proofs.OrderedMaps

/-! What a carrier map holds: the carriers of the inputs that the module reads, each for the start
of its axes, and nothing else. So the carrier of a vector is as long as the vector, carriers of
prefixes are prefixes, and choosing a carrier for an expression of the module is looking it up. -/
namespace LoopNest

/-- The inputs that a module reads. -/
def StampedModule.inputUses (m : StampedModule) : List InputUse :=
  m.decls.flatMap fun d => StampedExpr.inputUses d.body

namespace Carrier

/-- The carriers that an input gives. -/
def offers (u : InputUse) : List (Axes × FieldPath) :=
  (List.range' 1 (depth u)).map fun k => (u.axes.take k, u.path.take k)

theorem mem_offers {u : InputUse} {p : Axes × FieldPath} :
    p ∈ offers u ↔ ∃ k, 0 < k ∧ k ≤ u.axes.length ∧ k ≤ u.path.length ∧
      p = (u.axes.take k, u.path.take k) := by
  simp only [offers, depth, List.mem_map, List.mem_range'_1]
  constructor
  · rintro ⟨k, hk, rfl⟩
    exact ⟨k, by omega, by omega, by omega, rfl⟩
  · rintro ⟨k, h0, ha, hp, rfl⟩
    exact ⟨k, by omega, rfl⟩

/-- A table of sightings after another one, once some carriers came up. -/
structure Adds (new : List (Axes × FieldPath)) (seen seen' : Sightings) : Prop where
  keeps : ∀ axes s, seen.find? axes = some s → seen'.find? axes = some s
  has : ∀ p ∈ new, (seen'.find? p.1).map Sighting.carrier = some p.2
  only : ∀ axes s, seen'.find? axes = some s →
    seen.find? axes = some s ∨ (axes, s.carrier) ∈ new

theorem Adds.refl (seen : Sightings) : Adds [] seen seen :=
  ⟨fun _ _ h => h, fun _ h => absurd h List.not_mem_nil, fun _ _ h => .inl h⟩

theorem Adds.trans {new new' : List (Axes × FieldPath)} {a b c : Sightings} (h : Adds new a b)
    (h' : Adds new' b c) : Adds (new ++ new') a c where
  keeps axes s hs := h'.keeps axes s (h.keeps axes s hs)
  has p hp := by
    rcases List.mem_append.1 hp with hp | hp
    · obtain ⟨s, hs, hc⟩ := Option.map_eq_some_iff.1 (h.has p hp)
      rw [h'.keeps _ _ hs, Option.map_some, hc]
    · exact h'.has p hp
  only axes s hs := by
    rcases h'.only axes s hs with hs | hs
    · rcases h.only axes s hs with hs | hs
      · exact .inl hs
      · exact .inr (List.mem_append_left _ hs)
    · exact .inr (List.mem_append_right _ hs)

theorem compare_ne_of_ne {a b : Axes} (h : a ≠ b) : Axes.compare a b ≠ .eq :=
  fun hc => h (Std.LawfulEqCmp.eq_of_compare hc)

theorem adds_note {decl : String} {u : InputUse} {seen seen' : Sightings} {k : Nat}
    (h : note decl u seen k = .ok seen') :
    Adds [(u.axes.take k, u.path.take k)] seen seen' := by
  rw [note] at h
  split at h
  · rename_i hnone
    cases h
    refine ⟨fun axes s hs => ?_, fun p hp => ?_, fun axes s hs => ?_⟩
    · have hne : u.axes.take k ≠ axes := by
        rintro rfl
        rw [hnone] at hs
        cases hs
      rw [OrderedMap.find?_insert_of_ne _ _ (compare_ne_of_ne hne), hs]
    · cases List.mem_singleton.1 hp
      simp
    · by_cases hne : u.axes.take k = axes
      · subst hne
        rw [OrderedMap.find?_insert_self] at hs
        cases hs
        exact .inr List.mem_cons_self
      · rw [OrderedMap.find?_insert_of_ne _ _ (compare_ne_of_ne hne)] at hs
        exact .inl hs
  · rename_i prev hprev
    split at h
    · rename_i hc
      cases h
      refine ⟨fun _ _ hs => hs, fun p hp => ?_, fun _ _ hs => .inl hs⟩
      cases List.mem_singleton.1 hp
      rw [hprev, Option.map_some, hc]
    · cases h

/-- A fold over sources of carriers adds what each of them gives. -/
theorem adds_foldlM {α : Type} {f : Sightings → α → Except Diagnostic Sightings}
    {new : α → List (Axes × FieldPath)}
    (step : ∀ seen x seen', f seen x = .ok seen' → Adds (new x) seen seen') {l : List α}
    {seen seen' : Sightings} (h : l.foldlM f seen = .ok seen') :
    Adds (l.flatMap new) seen seen' := by
  apply foldlM_induction (fun l a b => Adds (l.flatMap new) a b) _ _ h
  · exact Adds.refl
  · intro x l a a₁ a₂ hx hl
    rw [List.flatMap_cons]
    exact (step a x a₁ hx).trans hl

theorem adds_noteUse {decl : String} {u : InputUse} {seen seen' : Sightings}
    (h : noteUse decl seen u = .ok seen') : Adds (offers u) seen seen' := by
  have h := adds_foldlM (fun _ _ _ hk => adds_note hk) h
  rwa [← List.map_eq_flatMap] at h

theorem adds_noteDecl {d : StampedDecl} {seen seen' : Sightings}
    (h : noteDecl seen d = .ok seen') :
    Adds ((StampedExpr.inputUses d.body).flatMap offers) seen seen' :=
  adds_foldlM (fun _ _ _ hu => adds_noteUse hu) h

end Carrier

namespace CarrierMap

theorem find?_ofSightings (seen : Carrier.Sightings) (axes : Axes) :
    (ofSightings seen).find? axes = (seen.find? axes).map Carrier.Sighting.carrier := by
  simp only [OrderedMap.find?, ofSightings, List.find?_map, Option.map_map]
  rfl

/-- What a map holds for the inputs of a module. -/
structure Records (m : CarrierMap) (uses : List InputUse) : Prop where
  has : ∀ u ∈ uses, ∀ p ∈ Carrier.offers u, m.find? p.1 = some p.2
  only : ∀ axes path, m.find? axes = some path → ∃ u ∈ uses, (axes, path) ∈ Carrier.offers u

theorem records_ofModule {sm : StampedModule} {m : CarrierMap} (h : ofModule sm = .ok m) :
    m.Records sm.inputUses := by
  obtain ⟨seen, hs, h⟩ := Except.bind_eq_ok.1 h
  cases h
  have hadd := Carrier.adds_foldlM (fun _ _ _ hd => Carrier.adds_noteDecl hd) hs
  rw [← List.flatMap_assoc] at hadd
  refine ⟨fun u hu p hp => ?_, fun axes path hfind => ?_⟩
  · rw [find?_ofSightings]
    exact hadd.has p (List.mem_flatMap.2 ⟨u, hu, hp⟩)
  · rw [find?_ofSightings] at hfind
    obtain ⟨s, hs, rfl⟩ := Option.map_eq_some_iff.1 hfind
    rcases hadd.only axes s hs with h | h
    · cases h
    · exact List.mem_flatMap.1 h

namespace Records

variable {m : CarrierMap} {uses : List InputUse} {axes : Axes} {path : FieldPath}

theorem length_eq (h : m.Records uses) (hf : m.find? axes = some path) :
    path.length = axes.length := by
  obtain ⟨u, -, hu⟩ := h.only axes path hf
  obtain ⟨k, -, ha, hp, he⟩ := Carrier.mem_offers.1 hu
  cases he
  rw [List.length_take, List.length_take]
  omega

theorem ne_nil (h : m.Records uses) (hf : m.find? axes = some path) : axes ≠ [] := by
  obtain ⟨u, -, hu⟩ := h.only axes path hf
  obtain ⟨k, hk, ha, -, he⟩ := Carrier.mem_offers.1 hu
  cases he
  intro hnil
  have := congrArg List.length hnil
  rw [List.length_take, List.length_nil] at this
  omega

/-- An input carries its axes, as far as its path is long enough. -/
theorem find?_of_mem (h : m.Records uses) {u : InputUse} (hu : u ∈ uses) {k : Nat} (hk : 0 < k)
    (ha : k ≤ u.axes.length) (hp : k ≤ u.path.length) :
    m.find? (u.axes.take k) = some (u.path.take k) :=
  h.has u hu _ (Carrier.mem_offers.2 ⟨k, hk, ha, hp, rfl⟩)

/-- A carrier is a start of the path of an input. -/
theorem exists_use (h : m.Records uses) (hf : m.find? axes = some path) :
    ∃ u ∈ uses, axes <+: u.axes ∧ path <+: u.path := by
  obtain ⟨u, hu, ho⟩ := h.only axes path hf
  obtain ⟨k, -, -, -, he⟩ := Carrier.mem_offers.1 ho
  cases he
  exact ⟨u, hu, List.take_prefix _ _, List.take_prefix _ _⟩

/-- Carriers of prefixes are prefixes. -/
theorem find?_take (h : m.Records uses) (hf : m.find? axes = some path) {k : Nat} (hk : 0 < k) :
    m.find? (axes.take k) = some (path.take k) := by
  obtain ⟨u, hu, ho⟩ := h.only axes path hf
  obtain ⟨n, hn, ha, hp, he⟩ := Carrier.mem_offers.1 ho
  cases he
  have hmem : (u.axes.take (min k n), u.path.take (min k n)) ∈ Carrier.offers u :=
    Carrier.mem_offers.2 ⟨min k n, by omega, by omega, by omega, rfl⟩
  rw [List.take_take, List.take_take]
  exact h.has u hu _ hmem

/-- The carrier of a vector with one more axis has one more key. -/
theorem find?_append_singleton (h : m.Records uses) {a : Axis} (hne : axes ≠ [])
    (hf : m.find? (axes ++ [a]) = some path) : m.find? axes = some path.dropLast := by
  have hlen := h.length_eq hf
  have hpos : 0 < axes.length := List.length_pos_of_ne_nil hne
  have ht := h.find?_take hf hpos
  rw [List.take_left] at ht
  rw [ht, List.dropLast_eq_take, hlen, List.length_append, List.length_singleton,
    Nat.add_sub_cancel]

/-- More inputs have more carriers. -/
theorem within (h : m.Records uses) {m' : CarrierMap} {uses' : List InputUse}
    (h' : m'.Records uses') (hsub : uses ⊆ uses') : m.Within m' := by
  intro axes path hf
  obtain ⟨u, hu, ho⟩ := h.only axes path hf
  exact h'.has u (hsub hu) _ ho

end Records

/-- No two inputs give different carriers for the same axes. -/
def Coherent (uses : List InputUse) : Prop :=
  ∀ u ∈ uses, ∀ v ∈ uses, ∀ p ∈ Carrier.offers u, ∀ q ∈ Carrier.offers v, p.1 = q.1 → p.2 = q.2

/-- Nothing is noted but what the inputs give. -/
def Noted (uses : List InputUse) (seen : Carrier.Sightings) : Prop :=
  ∀ axes s, seen.find? axes = some s → ∃ u ∈ uses, (axes, s.carrier) ∈ Carrier.offers u

theorem note_of_coherent {uses : List InputUse} (h : Coherent uses) {u : InputUse} (hu : u ∈ uses)
    {k : Nat} (hk : (u.axes.take k, u.path.take k) ∈ Carrier.offers u) (decl : String)
    {seen : Carrier.Sightings} (hseen : Noted uses seen) :
    ∃ seen', Carrier.note decl u seen k = .ok seen' ∧ Noted uses seen' := by
  have hok : ∃ seen', Carrier.note decl u seen k = .ok seen' := by
    rw [Carrier.note]
    split
    · exact ⟨_, rfl⟩
    · rename_i prev hprev
      obtain ⟨v, hv, ho⟩ := hseen _ _ hprev
      rw [if_pos (h v hv u hu _ ho _ hk rfl)]
      exact ⟨_, rfl⟩
  obtain ⟨seen', hnote⟩ := hok
  refine ⟨seen', hnote, fun axes s hs => ?_⟩
  rcases (Carrier.adds_note hnote).only axes s hs with hs | hs
  · exact hseen axes s hs
  · exact ⟨u, hu, List.mem_singleton.1 hs ▸ hk⟩

/-- Inputs that agree are noted one after the other, and so are the declarations that read them. -/
theorem noteUse_of_coherent {uses : List InputUse} (h : Coherent uses) {u : InputUse}
    (hu : u ∈ uses) (decl : String) {seen : Carrier.Sightings} (hs : Noted uses seen) :
    ∃ seen', Carrier.noteUse decl seen u = .ok seen' ∧ Noted uses seen' :=
  foldlM_exists (Noted uses)
    (fun _ hk _ hs => note_of_coherent h hu (List.mem_map_of_mem hk) decl hs) hs

theorem noteDecl_of_coherent {uses : List InputUse} (h : Coherent uses) {d : StampedDecl}
    (hd : StampedExpr.inputUses d.body ⊆ uses) {seen : Carrier.Sightings} (hs : Noted uses seen) :
    ∃ seen', Carrier.noteDecl seen d = .ok seen' ∧ Noted uses seen' :=
  foldlM_exists (Noted uses) (fun _ hu _ hs => noteUse_of_coherent h (hd hu) d.name hs) hs

/-- The carriers of a module are found just if its inputs agree on them. -/
theorem exists_ofModule_iff {sm : StampedModule} :
    (∃ m, ofModule sm = .ok m) ↔ Coherent sm.inputUses := by
  constructor
  · rintro ⟨m, hm⟩ u hu v hv p hp q hq heq
    have hrecords := records_ofModule hm
    have hboth := hrecords.has u hu p hp
    rw [heq, hrecords.has v hv q hq] at hboth
    exact (Option.some.inj hboth).symm
  · intro h
    have hnone : Noted sm.inputUses .empty := fun _ _ hs => nomatch hs
    have hstep : ∀ d ∈ sm.decls, ∀ seen, Noted sm.inputUses seen →
        ∃ seen', Carrier.noteDecl seen d = .ok seen' ∧ Noted sm.inputUses seen' :=
      fun d hd _ hs => noteDecl_of_coherent h (fun u hu => List.mem_flatMap.2 ⟨d, hd, hu⟩) hs
    obtain ⟨seen, hseen, -⟩ := foldlM_exists (Noted sm.inputUses) hstep hnone
    exact ⟨_, Except.bind_eq_ok.2 ⟨seen, hseen, rfl⟩⟩

end CarrierMap

/-- Where an expression of the module asks for a carrier, it gets that of the module. -/
theorem Carrier.find?_of_choose {m : CarrierMap} {uses : List InputUse} (h : m.Records uses)
    {e : StampedExpr} (he : StampedExpr.inputUses e ⊆ uses) {axes : Axes} (hne : axes ≠ [])
    {path : FieldPath} (hc : choose axes e m = .ok path) : m.find? axes = some path := by
  rw [choose] at hc
  split at hc
  · rename_i u hu
    cases hc
    have hmem := List.mem_of_find?_eq_some hu
    have hlen := List.find?_some hu
    simp only [anchors, List.mem_filter, List.isPrefixOf_iff_prefix] at hmem
    simp only [decide_eq_true_eq] at hlen
    have hax : u.axes.take axes.length = axes := (List.prefix_iff_eq_take.1 hmem.2).symm
    have hoffer : (u.axes.take axes.length, u.path.take axes.length) ∈ offers u :=
      mem_offers.2 ⟨axes.length, List.length_pos_of_ne_nil hne, hmem.2.length_le, hlen, rfl⟩
    have hfind := h.has u (he hmem.1) _ hoffer
    rwa [hax] at hfind
  · split at hc
    · rename_i path' hfind
      cases hc
      exact hfind
    · split at hc <;> cases hc

/-- There is no carrier where the module has none. If an input varies over the axes, its path is too
short. -/
theorem Carrier.choose_eq_error {axes : Axes} {e : StampedExpr} {carriers : CarrierMap}
    {d : Diagnostic} (h : choose axes e carriers = .error d) :
    carriers.find? axes = none ∧
      d.code = some (if anchors axes e = [] then .missingCarrier else .missingAnchor) := by
  rw [choose] at h
  split at h
  · cases h
  · split at h
    · cases h
    · rename_i hnone
      refine ⟨hnone, ?_⟩
      split at h
      · rename_i u us hus
        cases h
        rw [if_neg (by rw [hus]; exact List.cons_ne_nil u us)]
        rfl
      · rename_i hnil
        cases h
        rw [if_pos hnil]
        rfl

/-- What the module has for some axes is what an expression of it gets. -/
theorem Carrier.choose_of_find? {m : CarrierMap} {uses : List InputUse} (h : m.Records uses)
    {e : StampedExpr} (he : StampedExpr.inputUses e ⊆ uses) {axes : Axes} {path : FieldPath}
    (hf : m.find? axes = some path) : choose axes e m = .ok path := by
  cases hc : choose axes e m with
  | ok path' => rw [Option.some.inj (hf.symm.trans (find?_of_choose h he (h.ne_nil hf) hc))]
  | error d =>
    rw [(choose_eq_error hc).1] at hf
    cases hf

end LoopNest
