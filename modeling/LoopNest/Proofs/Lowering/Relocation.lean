import LoopNest.Code.Renaming
import LoopNest.Proofs.Lowering.Emitted

/-! Emitted code in another place: with other names, and with more declarations known. -/
namespace LoopNest

namespace Renaming

/-- An open loop, with the new name of its element. -/
def place (ρ : Renaming) (p : Place Reg) : Place Reg := ⟨p.logical, p.carrier, ρ.reg p.element⟩

def opening (ρ : Renaming) (o : Opening) : Opening :=
  ⟨o.loads.map ρ.instr, o.axis, ρ.reg o.collection, ρ.reg o.element, ρ.reg o.index, ρ.loop o.id,
    o.startSpan, o.stopSpan⟩

def reference (ρ : Renaming) (ref : Reference) : Reference :=
  ⟨ref.use, ρ.reg ref.reg, ref.places.map ρ.place⟩

theorem elements_map_place (ρ : Renaming) (places : List (Place Reg)) :
    Place.elements (places.map ρ.place) = (Place.elements places).map ρ.reg := by
  rw [Place.elements, Place.elements, List.map_map, List.map_map]
  rfl

theorem logicalOf_map_place (ρ : Renaming) (places : List (Place Reg)) :
    Place.logicalOf (places.map ρ.place) = Place.logicalOf places := by
  cases places with
  | nil => rfl
  | cons p places => rfl

/-- A renaming leaves the carriers as they are, so it does not change which loop is found. -/
theorem find?_map_place (ρ : Renaming) (places : List (Place Reg)) (test : FieldPath → Bool) :
    Place.find? (places.map ρ.place) test = (Place.find? places test).map ρ.place := by
  unfold Place.find?
  rw [List.find?_map]
  rfl

theorem map_wrap (ρ : Renaming) (os : List Opening) (inner : Block) :
    (Opening.wrap os inner).map ρ.instr =
      Opening.wrap (os.map ρ.opening) (inner.map ρ.instr) := by
  induction os with
  | nil => rfl
  | cons o os ih =>
    rw [Opening.wrap, Block.map_steps, Block.map, ih]
    rfl

end Renaming

theorem Walks.rename (ρ : Renaming) {dtype : Option DType} {base r : Reg} {keys : FieldPath}
    {is : List Instr} (h : Walks dtype base keys is r) :
    Walks dtype (ρ.reg base) keys (is.map ρ.instr) (ρ.reg r) := by
  induction h with
  | stay => exact .stay
  | load _ ih => exact .load ih

theorem Loads.rename (ρ : Renaming) {dtype : Option DType} {places : List (Place Reg)}
    {test : FieldPath → Bool} {path : FieldPath} {is : List Instr} {r : Reg}
    (h : Loads dtype places test path is r) :
    Loads dtype (places.map ρ.place) test path (is.map ρ.instr) (ρ.reg r) := by
  cases h with
  | @place p _ _ _ hfind hw =>
    refine .place (p := ρ.place p) ?_ (hw.rename ρ)
    rw [ρ.find?_map_place, hfind]
    rfl
  | root hfind hw =>
    refine .root ?_ (hw.rename ρ)
    rw [ρ.find?_map_place, hfind]
    rfl

theorem Opens.rename (ρ : Renaming) {carriers : CarrierMap} {places inner : List (Place Reg)}
    {axes rest : Axes} {os : List Opening} (h : Opens carriers places axes rest os inner) :
    Opens carriers (places.map ρ.place) axes rest (os.map ρ.opening) (inner.map ρ.place) := by
  induction h with
  | nil => exact .nil
  | cons hc ha hl _ ih => exact .cons hc ha (hl.rename ρ) ih

namespace Emits

variable {env : Lowering.Env} {inlined : Bool} {known known' : String → Option StampedExpr}
  {places : List (Place Reg)} {es : List StampedExpr} {b : Block} {rs : List Reg}
  {refs : List Reference}

/-- Code with other names is emitted code, whatever the names. -/
theorem rename (ρ : Renaming) (h : Emits env inlined known places es b rs refs) :
    Emits env inlined known (places.map ρ.place) es (b.map ρ.instr) (rs.map ρ.reg)
      (refs.map ρ.reference) := by
  induction h with
  | nil => exact .nil
  | constant _ ih => exact .constant ih
  | input hl _ ih =>
    rw [Block.map_steps]
    exact .input (hl.rename ρ) ih
  | load hk hx ha _ ih => exact .load hk hx (by rwa [ρ.logicalOf_map_place]) ih
  | compute hi hk hx ha hn _ _ ihbody ih =>
    rw [Block.map_append, List.map_append]
    exact .compute hi hk hx (by rwa [ρ.logicalOf_map_place]) (by rwa [List.length_map]) ihbody ih
  | call _ _ ihargs ih =>
    rw [Block.map_append, List.map_append]
    exact .call ihargs ih
  | tuple _ _ ihargs ih =>
    rw [Block.map_append, List.map_append]
    exact .tuple ihargs ih
  | select _ _ ihargs ih =>
    rw [Block.map_append, List.map_append]
    exact .select ihargs ih
  | reduce ha hx hr hi ho _ _ iharg ih =>
    rw [Block.map, Block.map_append, ρ.map_wrap, Block.map_append, List.map_append]
    exact .reduce (by rwa [ρ.logicalOf_map_place]) hx hr hi (ho.rename ρ) iharg ih

/-- Code stays what it is when more declarations are known. -/
theorem mono (hk : ∀ name body, known name = some body → known' name = some body)
    (h : Emits env inlined known places es b rs refs) :
    Emits env inlined known' places es b rs refs := by
  induction h with
  | nil => exact .nil
  | constant _ ih => exact .constant ih
  | input hl _ ih => exact .input hl ih
  | load hname hx ha _ ih => exact .load (hk _ _ hname) hx ha ih
  | compute hi hname hx ha hn _ _ ihbody ih => exact .compute hi (hk _ _ hname) hx ha hn ihbody ih
  | call _ _ ihargs ih => exact .call ihargs ih
  | tuple _ _ ihargs ih => exact .tuple ihargs ih
  | select _ _ ihargs ih => exact .select ihargs ih
  | reduce ha hx hr hi ho _ _ iharg ih => exact .reduce ha hx hr hi ho iharg ih

end Emits
end LoopNest
