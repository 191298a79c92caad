/-! Finite maps as lists of entries in the order of their keys. The order makes the list a normal
form: two maps with the same look-ups are equal. -/
namespace LoopNest

/-- A finite map whose entries stand in the strict order of their keys. -/
structure OrderedMap {κ : Type} (cmp : κ → κ → Ordering) (ν : Type) where
  entries : List (κ × ν)
  ordered : entries.Pairwise fun a b => cmp a.1 b.1 = .lt

namespace OrderedMap

variable {κ ν : Type} {cmp : κ → κ → Ordering}

theorem ext {m n : OrderedMap cmp ν} (h : m.entries = n.entries) : m = n := by
  cases m; cases n; cases h; rfl

def empty : OrderedMap cmp ν := ⟨[], List.Pairwise.nil⟩

def size (m : OrderedMap cmp ν) : Nat := m.entries.length

def isEmpty (m : OrderedMap cmp ν) : Bool := m.entries.isEmpty

def values (m : OrderedMap cmp ν) : List ν := m.entries.map Prod.snd

def find? (m : OrderedMap cmp ν) (k : κ) : Option ν :=
  (m.entries.find? fun e => cmp e.1 k == .eq).map Prod.snd

def contains (m : OrderedMap cmp ν) (k : κ) : Bool := (m.find? k).isSome

@[simp] theorem find?_empty (k : κ) : (empty : OrderedMap cmp ν).find? k = none := rfl

/-- Puts an entry into its place and drops an older one with the same key. -/
def place (cmp : κ → κ → Ordering) (k : κ) (v : ν) : List (κ × ν) → List (κ × ν)
  | [] => [(k, v)]
  | e :: rest =>
    match cmp k e.1 with
    | .lt => (k, v) :: e :: rest
    | .eq => (k, v) :: rest
    | .gt => e :: place cmp k v rest

theorem mem_place {k : κ} {v : ν} {x : κ × ν} {es : List (κ × ν)} (h : x ∈ place cmp k v es) :
    x = (k, v) ∨ x ∈ es := by
  induction es with
  | nil => simpa [place] using h
  | cons e rest ih =>
    rw [place] at h
    split at h
    · simpa using h
    · rcases List.mem_cons.1 h with h | h
      · exact .inl h
      · exact .inr (List.mem_cons_of_mem _ h)
    · rcases List.mem_cons.1 h with h | h
      · exact .inr (h ▸ List.mem_cons_self)
      · rcases ih h with h | h
        · exact .inl h
        · exact .inr (List.mem_cons_of_mem _ h)

variable [Std.TransCmp cmp]

theorem place_ordered {k : κ} {v : ν} {es : List (κ × ν)}
    (h : es.Pairwise fun a b => cmp a.1 b.1 = .lt) :
    (place cmp k v es).Pairwise fun a b => cmp a.1 b.1 = .lt := by
  induction es with
  | nil => simp [place]
  | cons e rest ih =>
    obtain ⟨he, hr⟩ := List.pairwise_cons.1 h
    rw [place]
    split
    · rename_i hk
      refine List.pairwise_cons.2 ⟨fun x hx => ?_, h⟩
      rcases List.mem_cons.1 hx with rfl | hx
      · exact hk
      · exact Std.TransCmp.lt_trans hk (he x hx)
    · rename_i hk
      refine List.pairwise_cons.2 ⟨fun x hx => ?_, hr⟩
      exact Std.TransCmp.lt_of_eq_of_lt hk (he x hx)
    · rename_i hk
      refine List.pairwise_cons.2 ⟨fun x hx => ?_, ih hr⟩
      rcases mem_place hx with rfl | hx
      · exact Std.OrientedCmp.lt_of_gt hk
      · exact he x hx

def insert (m : OrderedMap cmp ν) (k : κ) (v : ν) : OrderedMap cmp ν :=
  ⟨place cmp k v m.entries, place_ordered m.ordered⟩

/-- The map of a list of entries; of equal keys the last one stays. -/
def ofList (es : List (κ × ν)) : OrderedMap cmp ν := es.foldl (fun m e => m.insert e.1 e.2) empty

theorem find?_place_self {k : κ} {v : ν} (es : List (κ × ν)) :
    ((place cmp k v es).find? fun e => cmp e.1 k == .eq) = some (k, v) := by
  have hkk : cmp k k = .eq := Std.ReflCmp.compare_self
  induction es with
  | nil => simp [place, hkk]
  | cons e rest ih =>
    rw [place]
    split
    · simp [hkk]
    · simp [hkk]
    · rename_i hk
      rw [List.find?_cons_of_neg, ih]
      simp [Std.OrientedCmp.lt_of_gt hk]

@[simp] theorem find?_insert_self (m : OrderedMap cmp ν) (k : κ) (v : ν) :
    (m.insert k v).find? k = some v := by
  simp [find?, insert, find?_place_self]

theorem find?_place_of_ne {k k' : κ} {v : ν} (h : cmp k k' ≠ .eq) (es : List (κ × ν)) :
    ((place cmp k v es).find? fun e => cmp e.1 k' == .eq) =
      es.find? fun e => cmp e.1 k' == .eq := by
  induction es with
  | nil => simp [place, h]
  | cons e rest ih =>
    rw [place]
    split
    · simp [h]
    · rename_i hk
      have he : cmp e.1 k' ≠ .eq := fun hc => h (Std.TransCmp.eq_trans hk hc)
      simp [h, he]
    · by_cases he : cmp e.1 k' = .eq
      · simp [he]
      · simp [he, ih]

theorem find?_insert_of_ne (m : OrderedMap cmp ν) {k k' : κ} (v : ν) (h : cmp k k' ≠ .eq) :
    (m.insert k v).find? k' = m.find? k' := by
  simp [find?, insert, find?_place_of_ne h]

end OrderedMap
end LoopNest
