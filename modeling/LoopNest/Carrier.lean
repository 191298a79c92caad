import LoopNest.Fault
import LoopNest.OrderedMap
import LoopNest.Stamp.Basic

/-! Carriers: the field path whose collection a loop over an axis vector walks. An input that varies
over `[a, b]` at the path `x.y.z` makes `x` the carrier of `[a]` and `x.y` that of `[a, b]`. All
inputs of a module have to agree. -/
namespace LoopNest

abbrev CarrierMap := OrderedMap Axes.compare FieldPath

def CarrierMap.render (m : CarrierMap) : String :=
  String.join (m.entries.map fun (axes, path) => axes.render ++ " -> " ++ path.render ++ "\n")

namespace Carrier

/-- How a carrier came up first. -/
structure Sighting where
  carrier : FieldPath
  origin : FieldPath
  decl : String
  span : Span

abbrev Sightings := OrderedMap Axes.compare Sighting

/-- Notes the carrier of the first `k` axes of an input, which has to be the one noted before. -/
def note (decl : String) (u : InputUse) (seen : Sightings) (k : Nat) :
    Except Diagnostic Sightings :=
  let axes := u.axes.take k
  let carrier := u.path.take k
  match seen.find? axes with
  | none => .ok (seen.insert axes ⟨carrier, u.path, decl, u.span⟩)
  | some prev =>
    if prev.carrier = carrier then .ok seen
    else
      let fault := Fault.ambiguousCarrier axes prev.carrier prev.origin carrier u.path
      .error (((fault.diagnose u.span).withRelated prev.span
        ("`" ++ prev.origin.render ++ "` first seen here, in `" ++ prev.decl ++ "`")).inDecl decl)

/-- How many axes of an input have a carrier in its path. -/
def depth (u : InputUse) : Nat := min u.axes.length u.path.length

def noteUse (decl : String) (seen : Sightings) (u : InputUse) :
    Except Diagnostic Sightings :=
  (List.range' 1 (depth u)).foldlM (note decl u) seen

def noteDecl (seen : Sightings) (d : StampedDecl) : Except Diagnostic Sightings :=
  (StampedExpr.inputUses d.body).foldlM (noteUse d.name) seen

end Carrier

/-- The map without how it came about. -/
def CarrierMap.ofSightings (seen : Carrier.Sightings) : CarrierMap where
  entries := seen.entries.map fun (axes, o) => (axes, o.carrier)
  ordered := List.pairwise_map.2 seen.ordered

/-- The carriers of all inputs that a module reads. -/
def CarrierMap.ofModule (m : StampedModule) : Except Diagnostic CarrierMap := do
  return .ofSightings (← m.decls.foldlM Carrier.noteDecl .empty)

namespace Carrier

/-- The inputs below an expression that vary over the given axes, and maybe over more. -/
def anchors (axes : Axes) (e : StampedExpr) : List InputUse :=
  (StampedExpr.inputUses e).filter fun u => axes.isPrefixOf u.axes

/-- The collection that a loop over `axes` walks on the way to an expression: the start of the path
of the first anchor that is long enough, or else what the module has for these axes. -/
def choose (axes : Axes) (anchor : StampedExpr) (carriers : CarrierMap) :
    Except Diagnostic FieldPath :=
  let candidates := anchors axes anchor
  match candidates.find? fun u => decide (axes.length ≤ u.path.length) with
  | some u => .ok (u.path.take axes.length)
  | none =>
    match carriers.find? axes with
    | some path => .ok path
    | none =>
      match candidates with
      | u :: _ => .error ((Fault.pathTooShort u.path axes).diagnose anchor.span)
      | [] => .error ((Fault.noCarrier axes).diagnose anchor.span)

end Carrier
end LoopNest
