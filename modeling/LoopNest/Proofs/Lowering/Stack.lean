import LoopNest.Proofs.Carriers
import LoopNest.Proofs.Lowering.Emitted

/-! Stacks of open loops. Each loop adds one axis to a start of the axes before it; so a stack
covers a vector of axes, and the loops for these form a trail through it. The other loops belong to
reductions that are under way, and nothing is looked up in them by the axes. -/
namespace LoopNest

variable {ε ι : Type}

/-- A stack of loops for a vector of axes, with the trail of these axes. Elements fit to the axes,
the carrier and the trail up to their loop. -/
inductive Stack (carriers : CarrierMap) (fits : Axes → FieldPath → List ι → ε → Prop) :
    List (Place ε) → Axes → List ι → Prop
  | nil : Stack carriers fits [] [] []
  | push {places : List (Place ε)} {axes kept : Axes} {trail : List ι} {a : Axis} {i : ι}
    {carrier : FieldPath} {e : ε} :
    Stack carriers fits places axes trail → kept <+: axes →
    carriers.find? (kept ++ [a]) = some carrier →
    fits (kept ++ [a]) carrier (trail.take kept.length ++ [i]) e →
    Stack carriers fits (⟨kept ++ [a], carrier, e⟩ :: places) (kept ++ [a])
      (trail.take kept.length ++ [i])

namespace Stack

variable {carriers : CarrierMap} {fits : Axes → FieldPath → List ι → ε → Prop}
  {places : List (Place ε)} {axes : Axes} {trail : List ι}

theorem logicalOf_eq (h : Stack carriers fits places axes trail) :
    Place.logicalOf places = axes := by
  cases h with
  | nil => rfl
  | push => rfl

theorem length_trail (h : Stack carriers fits places axes trail) : trail.length = axes.length := by
  induction h with
  | nil => rfl
  | push _ hk _ _ ih =>
    have := hk.length_le
    simp only [List.length_append, List.length_take, List.length_singleton]
    omega

theorem carrier_of_mem (h : Stack carriers fits places axes trail) {p : Place ε} (hp : p ∈ places) :
    carriers.find? p.logical = some p.carrier := by
  induction h with
  | nil => cases hp
  | push _ _ hc _ ih =>
    rcases List.mem_cons.1 hp with rfl | hp
    · exact hc
    · exact ih hp

theorem length_le (h : Stack carriers fits places axes trail) : axes.length ≤ places.length := by
  induction h with
  | nil => exact Nat.le_refl 0
  | push _ hk _ _ ih =>
    have := hk.length_le
    simp only [List.length_append, List.length_cons, List.length_nil]
    omega

/-- A start of the axes either includes the last one or is a start of those before. -/
theorem eq_or_prefix {kept start : Axes} {a : Axis} (h : start <+: kept ++ [a]) :
    start = kept ++ [a] ∨ start <+: kept ∧ start.length < (kept ++ [a]).length := by
  rcases List.prefix_concat_iff.1 h with h | h
  · exact .inl h
  · refine .inr ⟨h, ?_⟩
    have := h.length_le
    simp only [List.length_append, List.length_singleton]
    omega

/-- The trail of a start of the axes is the same before the last loop. -/
theorem take_push {kept start : Axes} (trail : List ι) (i : ι) (h : start <+: kept)
    (hlen : kept.length ≤ trail.length) :
    (trail.take kept.length ++ [i]).take start.length = trail.take start.length := by
  have := h.length_le
  rw [List.take_append_of_le_length (by rw [List.length_take]; omega), List.take_take,
    Nat.min_eq_left this]

/-- What a test finds that passes for the loop of some axes, and not for any loop over more. -/
theorem find?_eq (h : Stack carriers fits places axes trail) {start : Axes} (hs : start <+: axes)
    {test : FieldPath → Bool}
    (hskip : ∀ p ∈ places, start.length < p.logical.length → test p.carrier = false)
    (hpass : ∀ carrier, carriers.find? start = some carrier → test carrier = true) :
    (start = [] ∧ Place.find? places test = none) ∨
      ∃ carrier e, carriers.find? start = some carrier ∧
        Place.find? places test = some ⟨start, carrier, e⟩ ∧
        fits start carrier (trail.take start.length) e := by
  induction h with
  | nil =>
    rw [List.prefix_nil.1 hs]
    exact .inl ⟨rfl, rfl⟩
  | @push places axes kept trail a i carrier e hst hk hc hfit ih =>
    have hlen := hst.length_trail
    have hkept := hk.length_le
    rcases eq_or_prefix hs with rfl | ⟨hstart, hlt⟩
    · refine .inr ⟨carrier, e, hc, ?_, ?_⟩
      · exact Place.find?_cons_of_pos (hpass carrier hc) _
      · rwa [List.take_of_length_le]
        simp only [List.length_append, List.length_take, List.length_singleton]
        omega
    · have hno : test carrier = false := hskip _ List.mem_cons_self hlt
      rw [Place.find?_cons_of_neg (by simp [hno]), take_push trail i hstart (by omega)]
      exact ih (hstart.trans hk) fun p hp => hskip p (List.mem_cons_of_mem _ hp)

/-- The collection of a loop is found in the loop that it is nested in. -/
theorem find?_inside {uses : List InputUse} (hm : carriers.Records uses)
    (h : Stack carriers fits places axes trail) {start : Axes} (hs : start <+: axes) {a : Axis}
    {carrier : FieldPath} (hc : carriers.find? (start ++ [a]) = some carrier) :
    (start = [] ∧ Place.find? places carrier.inside = none) ∨
      ∃ e, carriers.find? start = some carrier.dropLast ∧
        Place.find? places carrier.inside = some ⟨start, carrier.dropLast, e⟩ ∧
        fits start carrier.dropLast (trail.take start.length) e := by
  have hlen := hm.length_eq hc
  rw [List.length_append, List.length_singleton] at hlen
  have hdrop : carrier.dropLast.length = start.length := by
    rw [List.length_dropLast]
    omega
  have hskip : ∀ p ∈ places, start.length < p.logical.length →
      carrier.inside p.carrier = false := by
    intro p hp hlt
    have := hm.length_eq (h.carrier_of_mem hp)
    rw [FieldPath.inside, Bool.and_eq_false_iff]
    exact .inl (decide_eq_false (by omega))
  have hparent : start ≠ [] → carriers.find? start = some carrier.dropLast :=
    fun hne => hm.find?_append_singleton hne hc
  have hpass : ∀ c, carriers.find? start = some c → carrier.inside c = true := by
    intro c hfind
    rw [hparent (hm.ne_nil hfind)] at hfind
    cases hfind
    rw [FieldPath.inside, Bool.and_eq_true]
    refine ⟨decide_eq_true (by omega), ?_⟩
    exact List.isPrefixOf_iff_prefix.2 (List.dropLast_prefix carrier)
  rcases h.find?_eq hs hskip hpass with hnil | ⟨c, e, hfind, hplace, hfit⟩
  · exact .inl hnil
  · have hcarrier := hparent (hm.ne_nil hfind)
    rw [hcarrier] at hfind
    cases hfind
    exact .inr ⟨e, hcarrier, hplace, hfit⟩

/-- A start of the axes has a stack with its own loops alone. -/
theorem spine (h : Stack carriers fits places axes trail) {start : Axes} (hs : start <+: axes) :
    ∃ places', Stack carriers fits places' start (trail.take start.length) ∧
      places'.length = start.length := by
  induction h generalizing start with
  | nil =>
    rw [List.prefix_nil.1 hs]
    exact ⟨[], .nil, rfl⟩
  | @push places axes kept trail a i carrier e hst hk hc hfit ih =>
    have hlen := hst.length_trail
    have hkept := hk.length_le
    rcases eq_or_prefix hs with rfl | ⟨hstart, -⟩
    · obtain ⟨places', hst', hlen'⟩ := ih hk
      have htake : (trail.take kept.length).take kept.length = trail.take kept.length := by
        rw [List.take_take, Nat.min_self]
      have hpush := hst'.push (i := i) (e := e) (List.prefix_refl kept) hc (by rwa [htake])
      rw [htake] at hpush
      refine ⟨⟨kept ++ [a], carrier, e⟩ :: places', ?_, ?_⟩
      · rwa [List.take_of_length_le]
        simp only [List.length_append, List.length_take, List.length_singleton]
        omega
      · simp only [List.length_cons, List.length_append, List.length_nil, hlen']
    · rw [take_push trail i hstart (by omega)]
      exact ih (hstart.trans hk)

/-- The last loop of a stack that has no more loops than axes. -/
theorem last_of_length_le (h : Stack carriers fits places axes trail)
    (hlen : places.length ≤ axes.length) :
    (places = [] ∧ axes = [] ∧ trail = []) ∨
      ∃ outer kept a before i carrier e, places = ⟨kept ++ [a], carrier, e⟩ :: outer ∧
        axes = kept ++ [a] ∧ trail = before ++ [i] ∧ Stack carriers fits outer kept before ∧
        outer.length ≤ kept.length ∧ carriers.find? (kept ++ [a]) = some carrier ∧
        fits (kept ++ [a]) carrier (before ++ [i]) e := by
  cases h with
  | nil => exact .inl ⟨rfl, rfl, rfl⟩
  | @push outer axes kept trail a i carrier e hst hk hc hfit =>
    simp only [List.length_cons, List.length_append, List.length_nil] at hlen
    have hle := hst.length_le
    have haxes : kept = axes := hk.eq_of_length_le (by omega)
    subst haxes
    have htake : trail.take kept.length = trail :=
      List.take_of_length_le (Nat.le_of_eq hst.length_trail)
    rw [htake] at hfit ⊢
    exact .inr ⟨outer, kept, a, trail, i, carrier, e, rfl, rfl, rfl, hst, by omega, hc, hfit⟩

/-- A stack of no more loops than axes is determined by its axes and its trail. -/
theorem unique (hfun : ∀ axes carrier trail e e', fits axes carrier trail e →
      fits axes carrier trail e' → e = e')
    {places' : List (Place ε)} (h : Stack carriers fits places axes trail)
    (hlen : places.length ≤ axes.length) (h' : Stack carriers fits places' axes trail)
    (hlen' : places'.length ≤ axes.length) : places = places' := by
  induction places generalizing places' axes trail with
  | nil =>
    rcases h.last_of_length_le hlen with ⟨-, rfl, -⟩ | ⟨_, _, _, _, _, _, _, hcons, -⟩
    · exact (List.eq_nil_of_length_eq_zero (Nat.le_zero.1 hlen')).symm
    · cases hcons
  | cons p places ih =>
    rcases h.last_of_length_le hlen with ⟨hnil, -⟩ |
      ⟨outer, kept, a, before, i, carrier, e, hp, rfl, rfl, hst, hle, hc, hfit⟩
    · cases hnil
    · cases hp
      rcases h'.last_of_length_le hlen' with ⟨-, hnil, -⟩ |
        ⟨outer', kept', a', before', i', carrier', e', rfl, haxes, htrail, hst', hle', hc', hfit'⟩
      · simp at hnil
      · obtain ⟨rfl, ha⟩ := List.append_inj' haxes rfl
        cases ha
        obtain ⟨rfl, hi⟩ := List.append_inj' htrail rfl
        cases hi
        cases hc.symm.trans hc'
        rw [ih hst hle hst' hle', hfun _ _ _ _ _ hfit hfit']

end Stack
end LoopNest
