import LoopNest.Proofs.Semantics.Cells
import LoopNest.Proofs.Stamp.Consistency

/-! The value of an expression inside of open loops, given what other declarations yielded. -/
namespace LoopNest

namespace StampedExpr

/-- The value that a reduction starts from. -/
def startValue (env : Lowering.Env) (m : Mark) (op : String) : Json :=
  match Lowering.identity env op m.stamp.dtype m.span with
  | .ok v => v.toJson
  | .error _ => .null

mutual
/-- The value of an expression. -/
def meaning (env : Lowering.Env) (w : World) : StampedExpr → List Cell → Json
  | .constant _ v, _ => v.toJson
  | .input _ path, cells => Cell.lookup w.data cells path.startsWith path
  | .ref m name, cells =>
    ((m.stamp.axes.mapM fun a => (Cell.loops cells).lookup a).bind (w.recorded name)).getD .null
  | .call _ func args, cells => w.interp.kernel func (meanings env w args cells)
  | .tuple _ elems, cells => w.interp.tuple (meanings env w elems cells)
  | .select _ c t f, cells =>
    if w.interp.truth (meaning env w c cells) then meaning env w t cells else meaning env w f cells
  | .reduce m op reduced arg, cells =>
    (Cell.reach env.carriers w.data cells m.stamp.axes reduced).foldl
      (fun total cells' => w.interp.reduce op total (meaning env w arg cells'))
      (startValue env m op)

def meanings (env : Lowering.Env) (w : World) : List StampedExpr → List Cell → List Json
  | [], _ => []
  | e :: es, cells => meaning env w e cells :: meanings env w es cells
end

theorem meanings_eq (env : Lowering.Env) (w : World) (es : List StampedExpr) (cells : List Cell) :
    meanings env w es cells = es.map fun e => meaning env w e cells := by
  induction es with
  | nil => rfl
  | cons e es ih => rw [meanings, ih, List.map_cons]

/-- Only the declarations that are referred to matter. -/
theorem meaning_congr {env : Lowering.Env} (w w' : World) (hi : w.interp = w'.interp)
    (hd : w.data = w'.data) {inputs : InputTable} {decls : List (String × Stamp)} {e : StampedExpr}
    (hc : e.Consistent inputs decls)
    (hr : ∀ name stamp, decls.lookup name = some stamp → w.recorded name = w'.recorded name)
    (cells : List Cell) : meaning env w e cells = meaning env w' e cells := by
  induction hc generalizing cells with
  | constant _ => rw [meaning, meaning]
  | input _ _ => rw [meaning, meaning, hd]
  | ref hl _ => rw [meaning, meaning, hr _ _ hl]
  | call _ _ ih =>
    rw [meaning, meaning, meanings_eq, meanings_eq, hi,
      List.map_congr_left fun a ha => ih a ha cells]
  | tuple _ _ ih =>
    rw [meaning, meaning, meanings_eq, meanings_eq, hi,
      List.map_congr_left fun a ha => ih a ha cells]
  | select _ _ _ _ ihc iht ihf => rw [meaning, meaning, hi, ihc, iht, ihf]
  | reduce _ _ _ ih =>
    rw [meaning, meaning, hi, hd]
    simp only [ih]

end StampedExpr

/-- What is recorded of the declarations that are known is their value, at all indices. -/
def World.Faithful (w : World) (env : Lowering.Env) (known : String → Option StampedExpr) : Prop :=
  ∀ name body cells is, known name = some body →
    Stack env.carriers (Item.Fits w.data) cells body.axes is → cells.length = body.axes.length →
    w.recorded name is = some (body.meaning env w cells)

namespace Stack

variable {env : Lowering.Env} {w : World} {known : String → Option StampedExpr} {cells : List Cell}
  {axes : Axes} {is : List Nat}

/-- A known declaration has a value at the indices of its axes. -/
theorem exists_recorded (hw : w.Faithful env known)
    (hnodup : ∀ axes carrier, env.carriers.find? axes = some carrier → axes.Nodup)
    (h : Stack env.carriers (Item.Fits w.data) cells axes is) {name : String} {body : StampedExpr}
    (hk : known name = some body) (hs : body.axes <+: axes) :
    ∃ v, ((body.axes.mapM fun a => (Cell.loops cells).lookup a).bind (w.recorded name)) =
      some v := by
  obtain ⟨cells', hst, hlen⟩ := h.spine hs
  refine ⟨body.meaning env w cells', ?_⟩
  rw [h.lookup_axes hnodup hs]
  exact hw name body cells' _ hk hst hlen

/-- Inside of loops over exactly its axes, a known declaration has the value of its body. -/
theorem recorded_eq (hw : w.Faithful env known)
    (hnodup : ∀ axes carrier, env.carriers.find? axes = some carrier → axes.Nodup)
    (h : Stack env.carriers (Item.Fits w.data) cells axes is) {name : String} {body : StampedExpr}
    (hk : known name = some body) (hs : body.axes <+: axes)
    (hlen : cells.length = body.axes.length) :
    ((body.axes.mapM fun a => (Cell.loops cells).lookup a).bind (w.recorded name)) =
      some (body.meaning env w cells) := by
  have hle := h.length_le
  have haxes : body.axes = axes := hs.eq_of_length_le (by omega)
  rw [h.lookup_axes hnodup hs, haxes,
    List.take_of_length_le (Nat.le_of_eq h.length_trail)]
  subst haxes
  exact hw name body cells is hk h hlen

end Stack
end LoopNest
