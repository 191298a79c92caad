import LoopNest.Proofs.Semantics.Module

/-! What expressions denote: a value for each tuple of indices, said without loops. An input is
found by its path and the indices, operands are taken at the indices of their own axes, and a
reduction is a fold over all indices of its axes. Where the data has arrays just where the inputs
say so, this is the value inside of loops. -/
namespace LoopNest

namespace Json

def isArray : Json → Bool
  | .array _ => true
  | _ => false

/-- Along a path there is an array after each of the first keys, and none after the others. -/
def Conforms : Json → FieldPath → Nat → Prop
  | _, [], _ => True
  | v, key :: keys, n + 1 =>
    (v.field key).isArray = true ∧ ∀ u ∈ (v.field key).items, u.Conforms keys n
  | v, key :: keys, 0 => (v.field key).isArray = false ∧ (v.field key).Conforms keys 0

/-- Whether data conforms can be computed. -/
instance decidableConforms :
    (v : Json) → (path : FieldPath) → (n : Nat) → Decidable (v.Conforms path n)
  | _, [], _ => .isTrue trivial
  | v, key :: keys, n + 1 =>
    have := fun u => decidableConforms u keys n
    inferInstanceAs (Decidable ((v.field key).isArray = true ∧
      ∀ u ∈ (v.field key).items, Conforms u keys n))
  | v, key :: keys, 0 =>
    have := decidableConforms (v.field key) keys 0
    inferInstanceAs (Decidable ((v.field key).isArray = false ∧ Conforms (v.field key) keys 0))

theorem items_of_not_isArray {v : Json} (h : v.isArray = false) : v.items = [] := by
  cases v with
  | array => cases h
  | _ => rfl

/-- Nothing is found with more indices than there are arrays. -/
theorem Conforms.locate_eq_none {v : Json} {path keys : FieldPath} {n : Nat} (h : v.Conforms path n)
    (hk : keys <+: path) (hn : n < keys.length) (is : List Nat) : v.locate keys is = none := by
  induction path generalizing v keys n is with
  | nil =>
    rw [List.prefix_nil.1 hk] at hn
    cases hn
  | cons key path ih =>
    cases keys with
    | nil => cases hn
    | cons key' keys =>
      obtain ⟨rfl, hkeys⟩ := List.cons_prefix_cons.1 hk
      cases is with
      | nil => rfl
      | cons i is =>
        rw [locate]
        cases n with
        | zero =>
          rw [items_of_not_isArray h.1]
          rfl
        | succ n =>
          cases hu : (v.field key').items[i]? with
          | none => rfl
          | some u =>
            exact ih (h.2 u (List.mem_of_getElem? hu)) hkeys (Nat.lt_of_succ_lt_succ hn) is

theorem tuples_congr (data : Json) {carrier? carrier?' : Axes → Option FieldPath}
    (h : ∀ axes, axes ≠ [] → carrier? axes = carrier?' axes) (axes : Axes) (is : List Nat)
    (rest : Axes) : data.tuples carrier? axes is rest = data.tuples carrier?' axes is rest := by
  induction rest generalizing axes is with
  | nil => rfl
  | cons a rest ih =>
    have hextent :
        data.extent carrier? (axes ++ [a]) is = data.extent carrier?' (axes ++ [a]) is := by
      rw [extent, extent, h _ (List.append_ne_nil_of_right_ne_nil _ (List.cons_ne_nil a []))]
    rw [tuples, tuples, hextent]
    simp only [ih]

/-- Indices come in lexicographic order. -/
theorem pairwise_tuples (data : Json) (carrier? : Axes → Option FieldPath) (axes : Axes)
    (is : List Nat) (rest : Axes) : (data.tuples carrier? axes is rest).Pairwise (· < ·) := by
  induction rest generalizing axes is with
  | nil => exact List.pairwise_singleton _ _
  | cons a rest ih =>
    rw [tuples, List.pairwise_flatMap]
    refine ⟨fun i _ => ?_, List.pairwise_lt_range.imp fun {i j} hij x hx y hy => ?_⟩
    · rw [List.pairwise_map]
      exact (ih _ _).imp fun hlt => List.cons_lt_cons_iff.2 (.inr ⟨rfl, hlt⟩)
    · obtain ⟨xs, -, rfl⟩ := List.mem_map.1 hx
      obtain ⟨ys, -, rfl⟩ := List.mem_map.1 hy
      exact List.cons_lt_cons_iff.2 (.inl hij)

/-- Each index is below the length of the array that the ones before lead to. -/
theorem mem_tuples {data : Json} {carrier? : Axes → Option FieldPath} {axes rest : Axes}
    {is js : List Nat} :
    js ∈ data.tuples carrier? axes is rest ↔ js.length = rest.length ∧
      ∀ k j, js[k]? = some j →
        j < data.extent carrier? (axes ++ rest.take (k + 1)) (is ++ js.take k) := by
  induction rest generalizing axes is js with
  | nil =>
    rw [tuples, List.mem_singleton]
    constructor
    · rintro rfl
      simp
    · exact fun h => List.eq_nil_of_length_eq_zero h.1
  | cons a rest ih =>
    have hshift (k : Nat) : axes ++ [a] ++ rest.take k = axes ++ (a :: rest).take (k + 1) := by
      rw [List.append_assoc]
      rfl
    simp only [tuples, List.mem_flatMap, List.mem_range, List.mem_map, ih, hshift]
    constructor
    · rintro ⟨j, hj, js, ⟨hlen, hjs⟩, rfl⟩
      refine ⟨congrArg (· + 1) hlen, fun k j' hj' => ?_⟩
      cases k with
      | zero =>
        cases hj'
        rwa [List.take_zero, List.append_nil]
      | succ k =>
        have hlt := hjs k j' hj'
        rwa [List.append_assoc] at hlt
    · rintro ⟨hlen, hjs⟩
      cases js with
      | nil => cases hlen
      | cons j js =>
        have hj := hjs 0 j rfl
        rw [List.take_zero, List.append_nil] at hj
        refine ⟨j, hj, js, ⟨Nat.succ.inj hlen, fun k j' hj' => ?_⟩, rfl⟩
        have hlt := hjs (k + 1) j' hj'
        rwa [List.append_assoc]

end Json

/-- What the values of a module depend on: the inputs that it reads, the functions, what these do,
and the data. -/
structure Setting where
  uses : List InputUse
  registry : Registry
  interp : Interpretation
  data : Json

namespace Setting

/-- The path to the collections of some axes: that of an input which varies over them. -/
def carrier? (s : Setting) (axes : Axes) : Option FieldPath :=
  (s.uses.find? fun u => axes.isPrefixOf u.axes).map fun u => u.path.take axes.length

/-- The indices of some axes, in lexicographic order. -/
def indices (s : Setting) (axes : Axes) : List (List Nat) := s.data.tuples s.carrier? [] [] axes

/-- The value that a reducer starts from. -/
def identity (s : Setting) (op : String) (dtype : DType) : Json :=
  (((s.registry.find? op).bind Signature.identity).bind fun i => i.literal? dtype).elim .null
    Literal.toJson

/-- The data has the arrays that the inputs ask for, and no others on the way. -/
def Conforms (s : Setting) : Prop :=
  ∀ u ∈ s.uses, u.axes.length ≤ u.path.length ∧ s.data.Conforms u.path u.axes.length

instance (s : Setting) : Decidable s.Conforms :=
  inferInstanceAs (Decidable (∀ u ∈ s.uses, u.axes.length ≤ u.path.length ∧
    s.data.Conforms u.path u.axes.length))

end Setting

namespace StampedExpr

mutual
/-- The value of an expression at the indices of its axes, given those of other declarations. -/
def denote (s : Setting) (callee : String → List Nat → Json) : StampedExpr → List Nat → Json
  | .constant _ v, _ => v.toJson
  | .input m path, is => s.data.follow path (is.take m.stamp.axes.length)
  | .ref m name, is => callee name (is.take m.stamp.axes.length)
  | .call _ func args, is => s.interp.kernel func (denoteAll s callee args is)
  | .tuple _ elems, is => s.interp.tuple (denoteAll s callee elems is)
  | .select _ c t f, is =>
    if s.interp.truth (denote s callee c (is.take (axes c).length)) then
      denote s callee t (is.take (axes t).length)
    else denote s callee f (is.take (axes f).length)
  | .reduce m op reduced arg, is =>
    (s.data.tuples s.carrier? m.stamp.axes is reduced).foldl
      (fun total js => s.interp.reduce op total (denote s callee arg (is ++ js)))
      (s.identity op m.stamp.dtype)

/-- The values of operands, each at the indices of its own axes. -/
def denoteAll (s : Setting) (callee : String → List Nat → Json) :
    List StampedExpr → List Nat → List Json
  | [], _ => []
  | e :: es, is => denote s callee e (is.take (axes e).length) :: denoteAll s callee es is
end

theorem denoteAll_eq (s : Setting) (callee : String → List Nat → Json) (es : List StampedExpr)
    (is : List Nat) :
    denoteAll s callee es is = es.map fun e => denote s callee e (is.take e.axes.length) := by
  induction es with
  | nil => rfl
  | cons e es ih => rw [denoteAll, ih, List.map_cons]

end StampedExpr

/-- The values of declarations by name. -/
abbrev Denotations := List (String × (List Nat → Json))

/-- The value of a declaration at some indices. -/
def Denotations.at (known : Denotations) (name : String) (is : List Nat) : Json :=
  match known.lookup name with
  | some f => f is
  | none => .null

namespace StampedModule

/-- What a module is evaluated in. -/
def setting (sm : StampedModule) (registry : Registry) (interp : Interpretation) (data : Json) :
    Setting := ⟨sm.inputUses, registry, interp, data⟩

/-- What declarations denote at all indices of their axes, one after the other, after those that are
known. -/
def tableFrom (s : Setting) (known : Denotations) : List StampedDecl → List (String × Yields)
  | [] => []
  | d :: ds =>
    let f := d.body.denote s known.at
    (d.name, (s.indices d.stamp.axes).map fun is => (is, f is)) ::
      tableFrom s ((d.name, f) :: known) ds

/-- What the declarations of a module denote. -/
def table (sm : StampedModule) (s : Setting) : List (String × Yields) := tableFrom s [] sm.decls

end StampedModule

namespace Setting

variable {s : Setting} {carriers : CarrierMap}

theorem startValue_eq (s : Setting) (carriers : CarrierMap) (m : Mark) (op : String) :
    StampedExpr.startValue ⟨carriers, s.registry⟩ m op = s.identity op m.stamp.dtype := by
  unfold StampedExpr.startValue identity Lowering.identity
  dsimp only
  cases s.registry.find? op with
  | none => rfl
  | some f =>
    rw [Option.bind_some]
    dsimp only
    cases f.identity.bind fun i => i.literal? m.stamp.dtype with
    | none => rfl
    | some v => rfl

/-- A carrier map has the paths to the collections of all axes. -/
theorem Conforms.carrier?_eq (hc : s.Conforms) (hm : carriers.Records s.uses) {axes : Axes}
    (hne : axes ≠ []) : s.carrier? axes = carriers.find? axes := by
  unfold carrier?
  cases hu : s.uses.find? fun u => axes.isPrefixOf u.axes with
  | some u =>
    have hmem := List.mem_of_find?_eq_some hu
    have hprefix : axes <+: u.axes := by simpa using List.find?_some hu
    have hlen := hprefix.length_le
    have hfind := hm.find?_of_mem hmem (List.length_pos_of_ne_nil hne) hlen
      (Nat.le_trans hlen (hc u hmem).1)
    rw [← List.prefix_iff_eq_take.1 hprefix] at hfind
    exact hfind.symm
  | none =>
    cases hf : carriers.find? axes with
    | none => rfl
    | some carrier =>
      obtain ⟨u, hmem, hprefix, -⟩ := hm.exists_use hf
      exact absurd (List.isPrefixOf_iff_prefix.2 hprefix) (List.find?_eq_none.1 hu u hmem)

end Setting

/-- An element of a stack fits to some indices. -/
theorem Stack.exists_fits {ε ι : Type} {carriers : CarrierMap}
    {fits : Axes → FieldPath → List ι → ε → Prop} {places : List (Place ε)} {axes : Axes}
    {trail : List ι} (h : Stack carriers fits places axes trail) {p : Place ε} (hp : p ∈ places) :
    ∃ trail', fits p.logical p.carrier trail' p.element := by
  induction h with
  | nil => cases hp
  | push _ _ _ hfit ih =>
    rcases List.mem_cons.1 hp with rfl | hp
    · exact ⟨_, hfit⟩
    · exact ih hp

/-- An input is found by its path and the indices of its axes. -/
theorem Stack.lookup_input {s : Setting} {carriers : CarrierMap} (hm : carriers.Records s.uses)
    (hc : s.Conforms) {cells : List Cell} {axes : Axes} {is : List Nat}
    (h : Stack carriers (Item.Fits s.data) cells axes is) {u : InputUse} (hu : u ∈ s.uses)
    (ha : u.axes <+: axes) :
    Cell.lookup s.data cells u.path.startsWith u.path =
      s.data.follow u.path (is.take u.axes.length) := by
  obtain ⟨hlen, hconf⟩ := hc u hu
  -- a loop over more axes than the input has is not on the way
  have hskip : ∀ p ∈ cells, u.axes.length < p.logical.length →
      u.path.startsWith p.carrier = false := by
    intro p hp hlt
    rw [Bool.eq_false_iff]
    intro hstart
    obtain ⟨js, hfit⟩ := h.exists_fits hp
    have hnone := hconf.locate_eq_none ((FieldPath.startsWith_iff _ _).1 hstart)
      (by rwa [hm.length_eq (h.carrier_of_mem hp)]) js
    rw [hfit.value] at hnone
    cases hnone
  have hcarrier : ∀ carrier, carriers.find? u.axes = some carrier →
      carrier = u.path.take u.axes.length := by
    intro carrier hfind
    have hown := hm.find?_of_mem hu (List.length_pos_of_ne_nil (hm.ne_nil hfind)) (Nat.le_refl _)
      hlen
    rw [List.take_length, hfind] at hown
    exact Option.some.inj hown
  have hpass : ∀ carrier, carriers.find? u.axes = some carrier →
      u.path.startsWith carrier = true := by
    intro carrier hfind
    rw [FieldPath.startsWith_iff, hcarrier carrier hfind]
    exact List.take_prefix _ _
  unfold Cell.lookup
  rcases h.find?_eq ha hskip hpass with ⟨hnil, hfind⟩ | ⟨carrier, e, hsome, hfind, hfit⟩
  · rw [hfind, hnil, List.length_nil, List.take_zero, Json.follow_nil]
  · rw [hfind]
    have hpath : u.path = carrier ++ u.path.drop carrier.length := by
      rw [hcarrier carrier hsome, List.length_take, Nat.min_eq_left hlen, List.take_append_drop]
    have hfollow := Json.follow_append hfit.value (u.path.drop carrier.length) []
    rw [← hpath, List.append_nil, Json.follow_nil] at hfollow
    exact hfollow.symm

/-- Loops by a carrier map reach what the data of a setting has. -/
structure Setting.Served (s : Setting) (carriers : CarrierMap) : Prop where
  records : carriers.Records s.uses
  nodup : ∀ axes carrier, carriers.find? axes = some carrier → axes.Nodup
  conforms : s.Conforms

/-- What is recorded of the declarations that are known is what they denote. -/
def World.Agrees (w : World) (carriers : CarrierMap) (bodies : String → Option StampedExpr)
    (known : Denotations) : Prop :=
  ∀ name body cells is, bodies name = some body →
    Stack carriers (Item.Fits w.data) cells body.axes is → cells.length = body.axes.length →
    w.recorded name is = some (known.at name is)

namespace StampedExpr

variable {s : Setting} {carriers : CarrierMap}

/-- The indices of an operand's axes are the same among those of the whole node. -/
theorem take_take_axes {own whole : Axes} (h : own <+: whole) (is : List Nat) :
    (is.take whole.length).take own.length = is.take own.length := by
  rw [List.take_take, Nat.min_eq_left h.length_le]

theorem meanings_eq_denoteAll {env : Lowering.Env} {w : World} {callee : String → List Nat → Json}
    {es : List StampedExpr} {whole : Axes} {cells : List Cell} {is : List Nat}
    (hlub : Axes.lub (es.map StampedExpr.axes) = .ok whole)
    (h : ∀ e ∈ es, e.axes <+: whole →
      meaning env w e cells = denote s callee e (is.take e.axes.length)) :
    meanings env w es cells = denoteAll s callee es (is.take whole.length) := by
  rw [meanings_eq, denoteAll_eq]
  refine List.map_congr_left fun e he => ?_
  have hown : e.axes <+: whole := Axes.prefix_of_lub hlub (List.mem_map.2 ⟨e, he, rfl⟩)
  rw [h e he hown, take_take_axes hown]

section Body

-- a body that is consistent after declarations whose records are right
variable {ys : List (String × Yields)} {bodies : String → Option StampedExpr} {known : Denotations}
  {inputs : InputTable} {decls : List (String × Stamp)} {e : StampedExpr}
  (hs : s.Served carriers) (hw : World.Agrees ⟨s.interp, s.data, ys⟩ carriers bodies known)
  (hc : e.Consistent inputs decls)
  (hk : ∀ name stamp, decls.lookup name = some stamp →
    ∃ body, bodies name = some body ∧ body.axes = stamp.axes)
  (hu : inputUses e ⊆ s.uses)
include hs hw hc hk hu

/-- The value of an expression inside of loops is what it denotes at their indices. -/
theorem meaning_eq_denote {cells : List Cell} {axes : Axes} {is : List Nat}
    (hst : Stack carriers (Item.Fits s.data) cells axes is) (he : e.axes <+: axes) :
    e.meaning ⟨carriers, s.registry⟩ ⟨s.interp, s.data, ys⟩ cells =
      e.denote s known.at (is.take e.axes.length) := by
  induction hc generalizing cells axes is with
  | constant _ => rw [meaning, denote]
  | @input m path entry hfind haxes =>
    rw [meaning, denote]
    change Cell.lookup s.data cells path.startsWith path =
      s.data.follow path ((is.take m.stamp.axes.length).take m.stamp.axes.length)
    rw [take_take_axes (List.prefix_refl _)]
    rw [inputUses] at hu
    exact hst.lookup_input hs.records hs.conforms (hu (List.mem_singleton_self _)) he
  | @ref m name stamp hl haxes =>
    obtain ⟨body, hbody, hx⟩ := hk name stamp hl
    rw [haxes] at hx
    have hprefix : body.axes <+: axes := hx ▸ he
    obtain ⟨cells', hst', hlen'⟩ := hst.spine hprefix
    have hvalue := hw name body cells' _ hbody hst' hlen'
    rw [meaning, denote]
    change ((m.stamp.axes.mapM fun a => (Cell.loops cells).lookup a).bind _).getD .null =
      known.at name ((is.take m.stamp.axes.length).take m.stamp.axes.length)
    rw [take_take_axes (List.prefix_refl _), ← hx, hst.lookup_axes hs.nodup hprefix,
      Option.bind_some, hvalue]
    rfl
  | @call m func args hlub _ ih =>
    rw [inputUses, inputUsesAll_eq] at hu
    rw [meaning, denote]
    refine congrArg _ (meanings_eq_denoteAll hlub fun a ha hown => ?_)
    exact ih a ha (fun u hu' => hu (List.mem_flatMap.2 ⟨a, ha, hu'⟩)) hst (hown.trans he)
  | @tuple m elems hlub _ ih =>
    rw [inputUses, inputUsesAll_eq] at hu
    rw [meaning, denote]
    refine congrArg _ (meanings_eq_denoteAll hlub fun a ha hown => ?_)
    exact ih a ha (fun u hu' => hu (List.mem_flatMap.2 ⟨a, ha, hu'⟩)) hst (hown.trans he)
  | @select m c t f hlub _ _ _ ihc iht ihf =>
    rw [inputUses, List.append_subset, List.append_subset] at hu
    have hpc : c.axes <+: m.stamp.axes := Axes.prefix_of_lub hlub (by simp)
    have hpt : t.axes <+: m.stamp.axes := Axes.prefix_of_lub hlub (by simp)
    have hpf : f.axes <+: m.stamp.axes := Axes.prefix_of_lub hlub (by simp)
    rw [meaning, denote, ihc hu.1 hst (hpc.trans he), iht hu.2.1 hst (hpt.trans he),
      ihf hu.2.2 hst (hpf.trans he)]
    change _ = if s.interp.truth (denote s known.at c ((is.take m.stamp.axes.length).take _)) then
        denote s known.at t ((is.take m.stamp.axes.length).take _)
      else denote s known.at f ((is.take m.stamp.axes.length).take _)
    rw [take_take_axes hpc, take_take_axes hpt, take_take_axes hpf]
  | @reduce m op reduced arg haxes hred _ ih =>
    rw [inputUses] at hu
    have he : m.stamp.axes <+: axes := he
    rw [meaning, denote, s.startValue_eq]
    change (Cell.reach carriers s.data cells m.stamp.axes reduced).foldl _ _ =
      (s.data.tuples s.carrier? m.stamp.axes (is.take m.stamp.axes.length) reduced).foldl
        (fun total js => s.interp.reduce op total
          (denote s known.at arg (is.take m.stamp.axes.length ++ js))) _
    rw [s.data.tuples_congr fun axes hne => hs.conforms.carrier?_eq hs.records hne]
    by_cases hne : reduced = []
    · -- then there are no axes at all, and the reducer takes a single value
      have harg : arg.axes = [] := hred hne
      have hvalue := ih hu hst (harg ▸ List.nil_prefix)
      subst hne
      have hroot : m.stamp.axes = [] := by rw [← List.append_nil m.stamp.axes, ← haxes, harg]
      rw [harg] at hvalue
      rw [Cell.reach, Json.tuples, hroot, List.foldl_cons, List.foldl_cons, hvalue]
      rfl
    · refine foldl_eq_of_forall₂ (hst.reach_tuples hs.records he fun h => absurd h hne) ?_ _
      rintro total cells' js ⟨hst', -⟩
      have hall : is.take m.stamp.axes.length ++ js =
          (is.take m.stamp.axes.length ++ js).take arg.axes.length :=
        (List.take_of_length_le (Nat.le_of_eq (by rw [hst'.length_trail, haxes]))).symm
      rw [ih hu hst' (haxes ▸ List.prefix_refl _), ← hall]

/-- What a body yields is what it denotes at all indices of its axes. -/
theorem yields_eq :
    e.yields ⟨carriers, s.registry⟩ ⟨s.interp, s.data, ys⟩ =
      (s.indices e.axes).map fun is => (is, e.denote s known.at is) := by
  rw [yields, Setting.indices,
    s.data.tuples_congr fun axes hne => hs.conforms.carrier?_eq hs.records hne]
  refine map_eq_of_forall₂ (Stack.reach_root hs.records s.data e.axes) ?_
  rintro cells is ⟨hst, hlen⟩
  rw [hst.indices_eq (Nat.le_of_eq hlen),
    meaning_eq_denote hs hw hc hk hu hst (List.prefix_refl _),
    List.take_of_length_le (Nat.le_of_eq hst.length_trail)]

/-- What a body yields at some indices is what it denotes there. -/
theorem lookup_yields_eq {cells : List Cell} {is : List Nat}
    (hst : Stack carriers (Item.Fits s.data) cells e.axes is)
    (hlen : cells.length = e.axes.length) :
    (e.yields ⟨carriers, s.registry⟩ ⟨s.interp, s.data, ys⟩).reverse.lookup is =
      some (e.denote s known.at is) := by
  rw [lookup_yields hs.records hst hlen,
    meaning_eq_denote hs hw hc hk hu hst (List.prefix_refl _),
    List.take_of_length_le (Nat.le_of_eq hst.length_trail)]

end Body

end StampedExpr

namespace StampedModule

variable {s : Setting} {carriers : CarrierMap} {done : List StampedDecl} {d : StampedDecl}

/-- What a further declaration yields is recorded as what it denotes. -/
theorem agrees_record {w : World} {known : Denotations} {ys : Yields} {f : List Nat → Json}
    (hw : w.Agrees carriers (bodies done) known) (hnew : ∀ d' ∈ done, d'.name ≠ d.name)
    (hys : ∀ cells is, Stack carriers (Item.Fits w.data) cells d.body.axes is →
      cells.length = d.body.axes.length → ys.reverse.lookup is = some (f is)) :
    (w.record d.name ys).Agrees carriers (bodies (done ++ [d])) ((d.name, f) :: known) := by
  intro name body cells is hk hst hlen
  rcases bodies_append_eq_some hk with ⟨d', hmem, rfl, rfl, hknown⟩ | ⟨rfl, rfl⟩
  · have hne := hnew d' hmem
    rw [w.recorded_record_of_ne hne, hw d'.name d'.body cells is hknown hst hlen, Denotations.at,
      Denotations.at, List.lookup_cons, beq_false_of_ne hne]
  · rw [w.recorded_record_self, hys cells is hst hlen, Denotations.at, List.lookup_cons_self]

/-- Declarations yield what they denote. -/
theorem valuesFrom_eq (hs : s.Served carriers) {inputs : InputTable} {ds : List StampedDecl}
    (hc : ConsistentFrom inputs (stamps done) ds)
    (hdone : ∀ d ∈ done, d.stamp = d.body.note.stamp)
    (hnames : ((done ++ ds).map StampedDecl.name).Nodup)
    (hu : ∀ d ∈ ds, StampedExpr.inputUses d.body ⊆ s.uses) {ys : List (String × Yields)}
    {known : Denotations}
    (hw : World.Agrees ⟨s.interp, s.data, ys⟩ carriers (bodies done) known) :
    valuesFrom ⟨carriers, s.registry⟩ s.interp s.data ys ds =
      tableFrom s known ds := by
  induction ds generalizing done ys known with
  | nil => rfl
  | cons d ds ih =>
    obtain ⟨hbody, hstamp, hrest⟩ := hc
    have hk : ∀ name stamp, (stamps done).lookup name = some stamp →
        ∃ body, bodies done name = some body ∧ body.axes = stamp.axes :=
      fun _ _ hl => exists_body_of_lookup_stamps hdone hl
    have hbu := hu d List.mem_cons_self
    have hyields := StampedExpr.yields_eq hs hw hbody hk hbu
    have hnew : ∀ d' ∈ done, d'.name ≠ d.name := by
      intro d' hd' he
      rw [List.map_append, List.map_cons, List.nodup_append] at hnames
      exact hnames.2.2 d'.name (List.mem_map.2 ⟨d', hd', rfl⟩) d.name List.mem_cons_self he
    have hw' := agrees_record hw hnew fun cells is hst hlen =>
      StampedExpr.lookup_yields_eq hs hw hbody hk hbu hst hlen
    rw [List.append_cons] at hnames
    have htail := ih (by rwa [stamps_append])
      (List.forall_mem_append.2 ⟨hdone, List.forall_mem_singleton.2 hstamp⟩) hnames
      (fun d' hd' => hu d' (List.mem_cons_of_mem _ hd')) hw'
    have haxes : d.stamp.axes = d.body.axes := by rw [hstamp]; rfl
    rw [tableFrom, haxes, ← hyields, valuesFrom]
    exact congrArg _ htail

/-- On data that conforms, code of a module yields what its declarations denote. -/
theorem Consistent.evaluate_eq_table {sm : StampedModule} {inputs : InputTable}
    (hc : sm.Consistent inputs) (ht : inputs.TokensDistinct)
    (hm : CarrierMap.ofModule sm = .ok carriers) {registry : Registry} {inlined : Bool}
    {m : LoopModule} (h : Codes ⟨carriers, registry⟩ inlined [] sm.decls m.decls)
    {interp : Interpretation} {data : Json} (hd : (sm.setting registry interp data).Conforms) :
    m.evaluate interp data = some (sm.table (sm.setting registry interp data)) := by
  have hs : (sm.setting registry interp data).Served carriers :=
    ⟨CarrierMap.records_ofModule hm, fun _ _ hfind => hc.nodup_of_carrier ht hm hfind, hd⟩
  have hnone : World.Agrees ⟨interp, data, []⟩ carriers (StampedModule.bodies []) [] :=
    fun _ _ _ _ hk => nomatch hk
  have hnames : (([] ++ sm.decls).map StampedDecl.name).Nodup := hc.names
  rw [hc.evaluate_eq ht hm h]
  exact congrArg some (valuesFrom_eq hs hc.bodies (List.forall_mem_nil _) hnames
    (fun d hd u hu => List.mem_flatMap.2 ⟨d, hd, hu⟩) hnone)

end StampedModule
end LoopNest
