import LoopNest.Proofs.Code.Evaluation
import LoopNest.Proofs.Fallible
import LoopNest.Proofs.Lowering.Stack
import Mathlib.Data.List.Forall2

/-! Data as open loops see it. Each loop holds an element of the data; a path is followed from the
innermost loop that leads to it. Where the loops form a stack, this is the element that the indices
of the stack lead to from the root. -/
namespace LoopNest

namespace Json

/-- The element that a path leads to, with an index after each key. -/
def locate (v : Json) : FieldPath → List Nat → Option Json
  | [], [] => some v
  | key :: keys, i :: is => ((v.field key).items[i]?).bind fun u => u.locate keys is
  | _, _ => none

/-- The value that a path leads to, with an index after each of the first keys. -/
def follow (v : Json) : FieldPath → List Nat → Json
  | [], _ => v
  | key :: keys, [] => (v.field key).follow keys []
  | key :: keys, i :: is => ((v.field key).items[i]?.getD .null).follow keys is

theorem follow_nil (v : Json) (keys : FieldPath) : v.follow keys [] = v.fields keys := by
  induction keys generalizing v with
  | nil => rfl
  | cons key keys ih => rw [follow, ih, fields_cons]

/-- Induction along the elements on the way to a value. -/
theorem locate_induction {u : Json} {motive : Json → FieldPath → List Nat → Prop}
    (here : motive u [] [])
    (step : ∀ v w key keys i is, (v.field key).items[i]? = some w → motive w keys is →
      motive v (key :: keys) (i :: is))
    {v : Json} {keys : FieldPath} {is : List Nat} (h : v.locate keys is = some u) :
    motive v keys is := by
  induction keys generalizing v is with
  | nil =>
    cases is with
    | nil =>
      cases h
      exact here
    | cons i is => cases h
  | cons key keys ih =>
    cases is with
    | nil => cases h
    | cons i is =>
      obtain ⟨w, hw, h⟩ := Option.bind_eq_some_iff.1 h
      exact step v w key keys i is hw (ih h)

theorem locate_append {v u : Json} {keys : FieldPath} {is : List Nat}
    (h : v.locate keys is = some u) (keys' : FieldPath) (is' : List Nat) :
    v.locate (keys ++ keys') (is ++ is') = u.locate keys' is' := by
  refine locate_induction
    (motive := fun v keys is => v.locate (keys ++ keys') (is ++ is') = u.locate keys' is') rfl ?_ h
  intro v w key keys i is hw ih
  rw [List.cons_append, List.cons_append, locate, hw]
  exact ih

theorem follow_append {v u : Json} {keys : FieldPath} {is : List Nat}
    (h : v.locate keys is = some u) (keys' : FieldPath) (is' : List Nat) :
    v.follow (keys ++ keys') (is ++ is') = u.follow keys' is' := by
  refine locate_induction
    (motive := fun v keys is => v.follow (keys ++ keys') (is ++ is') = u.follow keys' is') rfl ?_ h
  intro v w key keys i is hw ih
  rw [List.cons_append, List.cons_append, follow, hw]
  exact ih

end Json

/-- What a loop holds: the element of its collection at an index. -/
structure Item where
  axis : Axis
  index : Nat
  value : Json

/-- A loop over data. -/
abbrev Cell := Place Item

/-- An item is what the indices of its loops lead to. -/
structure Item.Fits (data : Json) (axes : Axes) (carrier : FieldPath) (indices : List Nat)
    (e : Item) : Prop where
  axis : axes.getLast? = some e.axis
  index : indices.getLast? = some e.index
  value : data.locate carrier indices = some e.value

theorem Item.Fits.eq {data : Json} {axes : Axes} {carrier : FieldPath} {indices : List Nat}
    {e e' : Item} (h : Fits data axes carrier indices e) (h' : Fits data axes carrier indices e') :
    e = e' := by
  have ha := Option.some.inj (h.axis.symm.trans h'.axis)
  have hi := Option.some.inj (h.index.symm.trans h'.index)
  have hv := Option.some.inj (h.value.symm.trans h'.value)
  cases e
  cases e'
  cases ha
  cases hi
  cases hv
  rfl

namespace Cell

/-- The value of a path, from the innermost loop that passes a test, or else from the root. -/
def lookup (data : Json) (cells : List Cell) (test : FieldPath → Bool) (path : FieldPath) : Json :=
  match Place.find? cells test with
  | some c => c.element.value.fields (path.drop c.carrier.length)
  | none => data.fields path

/-- The indices of the loops, outermost first. -/
def indices (cells : List Cell) : List Nat := (cells.map fun c => c.element.index).reverse

/-- The loops as a run sees them: each with its axis and its current index. -/
def loops (cells : List Cell) : List (Axis × Nat) :=
  cells.map fun c => (c.element.axis, c.element.index)

/-- Loops over further axes, with all elements of their collections in order. -/
def reach (carriers : CarrierMap) (data : Json) (cells : List Cell) (axes : Axes) :
    Axes → List (List Cell)
  | [] => [cells]
  | a :: rest =>
    match carriers.find? (axes ++ [a]) with
    | none => []
    | some carrier =>
      (lookup data cells carrier.inside carrier).items.zipIdx.flatMap fun (v, i) =>
        reach carriers data (⟨axes ++ [a], carrier, ⟨a, i, v⟩⟩ :: cells) (axes ++ [a]) rest

end Cell

namespace Json

/-- The number of elements along the last of some axes, at the indices of those before it; given the
paths to the collections of axes. -/
def extent (data : Json) (carrier? : Axes → Option FieldPath) (axes : Axes) (is : List Nat) : Nat :=
  match carrier? axes with
  | none => 0
  | some carrier => (data.follow carrier is).items.length

/-- All indices along further axes, in lexicographic order. -/
def tuples (data : Json) (carrier? : Axes → Option FieldPath) (axes : Axes) (is : List Nat) :
    Axes → List (List Nat)
  | [] => [[]]
  | a :: rest =>
    (List.range (data.extent carrier? (axes ++ [a]) is)).flatMap fun i =>
      (data.tuples carrier? (axes ++ [a]) (is ++ [i]) rest).map (i :: ·)

end Json

namespace Stack

variable {carriers : CarrierMap} {data : Json} {cells : List Cell} {axes : Axes} {is : List Nat}

/-- The collection of a loop is what the path leads to at the indices of the loops around. -/
theorem lookup_inside {uses : List InputUse} (hm : carriers.Records uses)
    (h : Stack carriers (Item.Fits data) cells axes is) {start : Axes} (hs : start <+: axes)
    {a : Axis} {carrier : FieldPath} (hc : carriers.find? (start ++ [a]) = some carrier) :
    Cell.lookup data cells carrier.inside carrier = data.follow carrier (is.take start.length) ∧
      ∀ i, data.locate carrier (is.take start.length ++ [i]) =
        (data.follow carrier (is.take start.length)).items[i]? := by
  have hlen := hm.length_eq hc
  rw [List.length_append, List.length_singleton] at hlen
  -- the carrier is that of the loop around, and one more key
  obtain ⟨key, hkey⟩ : ∃ key, carrier = carrier.dropLast ++ [key] := by
    refine ⟨carrier.getLast (List.ne_nil_of_length_eq_add_one hlen), ?_⟩
    exact (List.dropLast_append_getLast _).symm
  have hconcat (i : Nat) (v : Json) : v.locate [key] [i] = (v.field key).items[i]? := by
    rw [Json.locate]
    cases (v.field key).items[i]? with
    | none => rfl
    | some u => rfl
  unfold Cell.lookup
  rcases h.find?_inside hm hs hc with ⟨rfl, hfind⟩ | ⟨e, -, hfind, hfit⟩
  · have hroot : carrier.dropLast = [] :=
      List.eq_nil_of_length_eq_zero (by rw [List.length_dropLast, hlen]; rfl)
    rw [hroot, List.nil_append] at hkey
    rw [hfind, hkey, List.length_nil, List.take_zero, Json.follow_nil]
    exact ⟨rfl, fun i => hconcat i data⟩
  · have hvalue := hfit.value
    have hfollow : data.follow carrier (is.take start.length) = e.value.field key := by
      rw [hkey, ← List.append_nil (is.take start.length)]
      exact Json.follow_append hvalue [key] []
    refine ⟨?_, fun i => ?_⟩
    · rw [hfind, hfollow]
      change e.value.fields (carrier.drop carrier.dropLast.length) = _
      conv_lhs => rw [hkey, List.dropLast_concat, List.drop_left]
      rfl
    · rw [hfollow, ← hconcat, hkey]
      exact Json.locate_append hvalue [key] [i]

/-- One more loop, for an element of its collection. -/
theorem push_item {uses : List InputUse} (hm : carriers.Records uses)
    (h : Stack carriers (Item.Fits data) cells axes is) {start : Axes} (hs : start <+: axes)
    {a : Axis} {carrier : FieldPath} (hc : carriers.find? (start ++ [a]) = some carrier) {i : Nat}
    {v : Json} (hv : (Cell.lookup data cells carrier.inside carrier).items[i]? = some v) :
    Stack carriers (Item.Fits data) (⟨start ++ [a], carrier, ⟨a, i, v⟩⟩ :: cells) (start ++ [a])
      (is.take start.length ++ [i]) := by
  obtain ⟨hlookup, hlocate⟩ := h.lookup_inside hm hs hc
  refine h.push hs hc ⟨List.getLast?_concat, List.getLast?_concat, ?_⟩
  rw [hlocate, ← hlookup, hv]

/-- The loops over further axes have all their indices, in order. -/
theorem reach_tuples {uses : List InputUse} (hm : carriers.Records uses)
    (h : Stack carriers (Item.Fits data) cells axes is) {start rest : Axes} (hs : start <+: axes)
    (hall : rest = [] → start = axes) :
    List.Forall₂ (fun cells' js => Stack carriers (Item.Fits data) cells' (start ++ rest)
        (is.take start.length ++ js) ∧ cells'.length = cells.length + rest.length)
      (Cell.reach carriers data cells start rest)
      (data.tuples carriers.find? start (is.take start.length) rest) := by
  induction rest generalizing cells axes is start with
  | nil =>
    rw [hall rfl, List.take_of_length_le (Nat.le_of_eq h.length_trail), Cell.reach,
      Json.tuples]
    refine .cons ⟨?_, rfl⟩ .nil
    rwa [List.append_nil, List.append_nil]
  | cons a rest ih =>
    rw [Cell.reach, Json.tuples, Json.extent]
    cases hc : carriers.find? (start ++ [a]) with
    | none => exact .nil
    | some carrier =>
      obtain ⟨hlookup, -⟩ := h.lookup_inside hm hs hc
      simp only
      rw [← hlookup, List.range_eq_range', ← List.zipIdx_map_snd]
      set items := (Cell.lookup data cells carrier.inside carrier).items with hitems
      have hindex : List.Forall₂ (fun x i => x.2 = i ∧ items[i]? = some x.1) items.zipIdx
          (items.zipIdx.map Prod.snd) := by
        refine List.forall₂_map_right_iff.2 (List.forall₂_same.2 fun x hx => ⟨rfl, ?_⟩)
        exact List.mk_mem_zipIdx_iff_getElem?.1 hx
      refine List.rel_flatMap hindex ?_
      rintro ⟨v, i⟩ _ ⟨rfl, hv⟩
      refine List.forall₂_map_right_iff.2 ?_
      have hpush := h.push_item hm hs hc hv
      have hlen : (start ++ [a]).length = (is.take start.length ++ [i]).length :=
        hpush.length_trail.symm
      have hrest := ih hpush (List.prefix_refl _) fun _ => rfl
      rw [hlen, List.take_length] at hrest
      refine hrest.imp fun cells' js hjs => ⟨?_, ?_⟩
      · simpa only [List.append_assoc, List.singleton_append] using hjs.1
      · rw [hjs.2, List.length_cons, List.length_cons]
        omega

/-- In a stack of no more loops than axes, the indices of the loops are those of the axes. -/
theorem indices_eq (h : Stack carriers (Item.Fits data) cells axes is)
    (hlen : cells.length ≤ axes.length) : Cell.indices cells = is := by
  induction cells generalizing axes is with
  | nil =>
    rcases h.last_of_length_le hlen with ⟨-, -, rfl⟩ | ⟨_, _, _, _, _, _, _, hcons, -⟩
    · rfl
    · cases hcons
  | cons c cells ih =>
    rcases h.last_of_length_le hlen with ⟨hnil, -⟩ |
      ⟨outer, kept, a, before, i, carrier, e, hc, rfl, rfl, hst, hle, -, hfit⟩
    · cases hnil
    · cases hc
      have hi := hfit.index
      rw [List.getLast?_concat, Option.some.injEq] at hi
      rw [Cell.indices, List.map_cons, List.reverse_cons, ← Cell.indices, ih hst hle, hi]

/-- The loops over a whole vector of axes. -/
theorem reach_root {uses : List InputUse} (hm : carriers.Records uses) (data : Json) (axes : Axes) :
    List.Forall₂ (fun cells is => Stack carriers (Item.Fits data) cells axes is ∧
        cells.length = axes.length)
      (Cell.reach carriers data [] [] axes) (data.tuples carriers.find? [] [] axes) := by
  have hroot : Stack carriers (Item.Fits data) [] [] ([] : List Nat) := .nil
  refine (hroot.reach_tuples hm (List.prefix_refl []) fun _ => rfl).imp fun cells is h => ⟨h.1, ?_⟩
  rw [h.2, List.length_nil, Nat.zero_add]

/-- Where no axis occurs twice, the innermost loop over an axis is the one that the stack has for
it. -/
theorem lookup_axis (hnodup : ∀ axes carrier, carriers.find? axes = some carrier → axes.Nodup)
    (h : Stack carriers (Item.Fits data) cells axes is) {k : Nat} {a : Axis}
    (ha : axes[k]? = some a) :
    (Cell.loops cells).lookup a = is[k]? := by
  induction h with
  | nil => cases ha
  | @push cells axes kept is b i carrier e hst hk hc hfit ih =>
    have hlen := hst.length_trail
    have hkept := hk.length_le
    have haxis := hfit.axis
    have hindex := hfit.index
    rw [List.getLast?_concat, Option.some.injEq] at haxis hindex
    have hcut : (is.take kept.length).length = kept.length := by
      rw [List.length_take]
      omega
    change ((e.axis, e.index) :: Cell.loops cells).lookup a = _
    rw [List.lookup_cons, ← haxis, ← hindex]
    by_cases hlt : k < kept.length
    · rw [List.getElem?_append_left hlt] at ha
      have hne : a ≠ b := by
        rintro rfl
        have hdisj := List.nodup_append.1 (hnodup _ _ hc)
        exact hdisj.2.2 a (List.mem_of_getElem? ha) a (List.mem_singleton.2 rfl) rfl
      rw [beq_false_of_ne hne, List.getElem?_append_left (by omega), List.getElem?_take_of_lt hlt]
      refine ih ?_
      obtain ⟨tail, rfl⟩ := hk
      rw [List.getElem?_append_left hlt, ha]
    · have hk : k = kept.length := by
        have := (List.getElem?_eq_some_iff.1 ha).1
        rw [List.length_append, List.length_singleton] at this
        omega
      subst hk
      rw [List.getElem?_concat_length, Option.some.injEq] at ha
      subst ha
      rw [beq_self_eq_true, List.getElem?_append_right (Nat.le_of_eq hcut), hcut, Nat.sub_self]
      rfl

/-- So a start of the axes has its indices. -/
theorem lookup_axes (hnodup : ∀ axes carrier, carriers.find? axes = some carrier → axes.Nodup)
    (h : Stack carriers (Item.Fits data) cells axes is) {start : Axes} (hs : start <+: axes) :
    (start.mapM fun a => (Cell.loops cells).lookup a) =
      some (is.take start.length) := by
  have hlen := h.length_trail
  have hle := hs.length_le
  refine mapM_eq_some_of_getElem? (by rw [List.length_take]; omega) fun k a hk => ?_
  have hlt : k < start.length := (List.getElem?_eq_some_iff.1 hk).1
  rw [List.getElem?_take_of_lt hlt]
  refine h.lookup_axis hnodup ?_
  obtain ⟨tail, rfl⟩ := hs
  rw [List.getElem?_append_left hlt, hk]

end Stack

theorem Cell.reach_append (carriers : CarrierMap) (data : Json) (cells : List Cell)
    (axes rest rest' : Axes) :
    reach carriers data cells axes (rest ++ rest') =
      (reach carriers data cells axes rest).flatMap fun cells' =>
        reach carriers data cells' (axes ++ rest) rest' := by
  induction rest generalizing cells axes with
  | nil => simp [reach]
  | cons a rest ih =>
    rw [List.cons_append, reach, reach]
    cases carriers.find? (axes ++ [a]) with
    | none => rfl
    | some carrier =>
      simp only [List.flatMap_assoc, ih]
      simp only [List.append_assoc, List.singleton_append]

/-- A stack of no more loops than axes is among what the loops over its axes reach. -/
theorem Stack.mem_reach {carriers : CarrierMap} {uses : List InputUse} (hm : carriers.Records uses)
    {data : Json} {cells : List Cell} {axes : Axes} {is : List Nat}
    (h : Stack carriers (Item.Fits data) cells axes is) (hlen : cells.length ≤ axes.length) :
    cells ∈ Cell.reach carriers data [] [] axes := by
  induction cells generalizing axes is with
  | nil =>
    rcases h.last_of_length_le hlen with ⟨-, rfl, -⟩ | ⟨_, _, _, _, _, _, _, hcons, -⟩
    · exact List.mem_cons_self
    · cases hcons
  | cons c cells ih =>
    rcases h.last_of_length_le hlen with ⟨hnil, -⟩ |
      ⟨outer, kept, a, before, i, carrier, e, hcell, rfl, rfl, hst, hle, hc, hfit⟩
    · cases hnil
    · cases hcell
      have haxis := hfit.axis
      have hindex := hfit.index
      rw [List.getLast?_concat, Option.some.injEq] at haxis hindex
      obtain ⟨hlookup, hlocate⟩ := hst.lookup_inside hm (List.prefix_refl kept) hc
      have hbefore : before.take kept.length = before :=
        List.take_of_length_le (Nat.le_of_eq hst.length_trail)
      rw [hbefore] at hlookup hlocate
      have hvalue : (Cell.lookup data cells carrier.inside carrier).items[i]? = some e.value := by
        rw [hlookup, ← hlocate]
        exact hfit.value
      rw [Cell.reach_append]
      refine List.mem_flatMap.2 ⟨cells, ih hst hle, ?_⟩
      rw [List.nil_append, Cell.reach, hc]
      refine List.mem_flatMap.2 ⟨(e.value, i), List.mk_mem_zipIdx_iff_getElem?.2 hvalue, ?_⟩
      simp only [Cell.reach, List.mem_singleton, haxis, hindex]

end LoopNest
