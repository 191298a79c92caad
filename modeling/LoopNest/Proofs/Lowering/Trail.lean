import LoopNest.Proofs.Lowering.Nest
import LoopNest.Proofs.Lowering.Relocation
import LoopNest.Proofs.Lowering.Stack

/-! The loops of a nest as a stack: its trail holds the elements, outermost first. -/
namespace LoopNest

/-- An element is the end of its trail. -/
def Leads (_ : Axes) (_ : FieldPath) (trail : List Reg) (element : Reg) : Prop :=
  trail.getLast? = some element

namespace Stack

variable {carriers : CarrierMap} {places : List (Place Reg)} {axes : Axes} {trail : List Reg}

theorem push_element (h : Stack carriers Leads places axes trail) {kept : Axes} (hk : kept <+: axes)
    {a : Axis} {carrier : FieldPath} (hc : carriers.find? (kept ++ [a]) = some carrier) (e : Reg) :
    Stack carriers Leads (⟨kept ++ [a], carrier, e⟩ :: places) (kept ++ [a])
      (trail.take kept.length ++ [e]) :=
  h.push hk hc List.getLast?_concat

/-- Where all loops belong to the axes, the trail is all elements. -/
theorem trail_eq (h : Stack carriers Leads places axes trail) (hlen : places.length ≤ axes.length) :
    trail = (Place.elements places).reverse := by
  induction places generalizing axes trail with
  | nil =>
    cases h
    rfl
  | cons p places ih =>
    rcases h.last_of_length_le hlen with ⟨hnil, -⟩ |
      ⟨outer, kept, a, before, i, carrier, e, hp, rfl, rfl, hst, hle, -, hfit⟩
    · cases hnil
    · cases hp
      have hlast : i = e := by
        rw [Leads, List.getLast?_concat] at hfit
        exact Option.some.inj hfit
      rw [Place.elements_cons, List.reverse_cons, ← ih hst hle, hlast]

theorem rename (ρ : Renaming) (h : Stack carriers Leads places axes trail) :
    Stack carriers Leads (places.map ρ.place) axes (trail.map ρ.reg) := by
  induction h with
  | nil => exact .nil
  | @push places axes kept trail a i carrier e _ hk hc hfit ih =>
    have he : i = e := by
      rw [Leads, List.getLast?_concat] at hfit
      exact Option.some.inj hfit
    rw [List.map_append, List.map_take, List.map_singleton, he]
    exact ih.push_element hk hc (ρ.reg e)

end Stack

/-- The loops that are opened continue the stack. -/
theorem Opens.stack {carriers : CarrierMap} {places inner : List (Place Reg)} {axes rest : Axes}
    {os : List Opening} (h : Opens carriers places axes rest os inner) (hne : rest ≠ [])
    {covered : Axes} {trail : List Reg} (hst : Stack carriers Leads places covered trail)
    (ha : axes <+: covered) :
    Stack carriers Leads inner (axes ++ rest)
      (trail.take axes.length ++ os.map Opening.element) := by
  induction h generalizing covered trail with
  | nil => exact absurd rfl hne
  | @cons places inner axes rest a carrier o os hc _ _ ho ih =>
    have hpush := hst.push_element ha hc o.element
    cases rest with
    | nil =>
      cases ho
      exact hpush
    | cons a' rest =>
      have := ih (List.cons_ne_nil _ _) hpush (List.prefix_refl _)
      have htake : (trail.take axes.length ++ [o.element]).take (axes ++ [a]).length =
          trail.take axes.length ++ [o.element] := by
        refine List.take_of_length_le ?_
        simp only [List.length_append, List.length_take, List.length_singleton]
        omega
      rw [htake, List.append_assoc, List.append_assoc] at this
      exact this

/-- The loops of a nest are a stack for the axes of its body. -/
theorem Nest.For.stack {n : Nest} {env : Lowering.Env} {inlined : Bool}
    {known : String → Option StampedExpr} {body : StampedExpr} (h : n.For env inlined known body) :
    Stack env.carriers Leads n.places body.axes (n.openings.map Opening.element) := by
  have ho := h.opens
  cases hb : body.axes with
  | nil =>
    rw [hb] at ho
    generalize n.openings = os at ho ⊢
    generalize n.places = places at ho ⊢
    cases ho
    exact .nil
  | cons a rest =>
    rw [hb] at ho
    exact ho.stack (List.cons_ne_nil _ _) .nil List.nil_prefix

/-- The loops of a nest are those of any stack for its axes alone that has the same elements, up to
their names. -/
theorem Nest.For.places_eq {n : Nest} {env : Lowering.Env} {inlined : Bool}
    {known : String → Option StampedExpr} {body : StampedExpr} (h : n.For env inlined known body)
    (ρ : Renaming) {places : List (Place Reg)} {axes : Axes} {trail : List Reg}
    (hst : Stack env.carriers Leads places axes trail) (ha : body.axes <+: axes)
    (hlen : places.length = body.axes.length)
    (he : (n.openings.map fun o => ρ.reg o.element) = (Place.elements places).reverse) :
    n.places.map ρ.place = places := by
  have hle := hst.length_le
  have haxes : body.axes = axes := ha.eq_of_length_le (by omega)
  subst haxes
  have htrail : (n.openings.map Opening.element).map ρ.reg = trail := by
    rw [hst.trail_eq (Nat.le_of_eq hlen), ← he, List.map_map]
    rfl
  have hcallee := h.stack.rename ρ
  rw [htrail] at hcallee
  have hplaces : (n.places.map ρ.place).length ≤ body.axes.length := by
    have hcount := congrArg List.length h.opens.elements_eq.2
    rw [Place.elements, List.length_map, List.length_append, List.length_reverse, List.length_map,
      h.opens.elements_eq.1] at hcount
    rw [List.length_map]
    exact Nat.le_of_eq hcount
  refine hcallee.unique (fun _ _ t e e' hlast hlast' => ?_) hplaces hst (Nat.le_of_eq hlen)
  exact Option.some.inj (hlast.symm.trans hlast')

end LoopNest
