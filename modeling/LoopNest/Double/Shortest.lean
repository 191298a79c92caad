import LoopNest.Double.Basic

/-! The fewest decimal digits that read back to a number. The grids of one, two, and up to seventeen
digits are tried in turn; on each, only the two neighbours of the number can lie among the reals
that round to it. Of two such neighbours the nearer is taken. -/
namespace LoopNest.Double

/-- Where a number halfway between two shortest decimals goes. -/
inductive Tie where
  | up
  | toEven
  deriving DecidableEq

/-- The value `digits * 10 ^ scale`. -/
structure Decimal where
  digits : Nat
  scale : Int
  deriving DecidableEq

namespace Decimal

/-- Moves trailing zeros of the digits into the scale. -/
def trim : Nat → Decimal → Decimal
  | 0, d => d
  | fuel + 1, d =>
    if d.digits % 10 = 0 ∧ d.digits ≠ 0 then trim fuel ⟨d.digits / 10, d.scale + 1⟩ else d

/-- The exponent of the leading digit. -/
def exponent (d : Decimal) : Int := d.scale + countDigits d.digits - 1

end Decimal

/-- All quantities below are in multiples of `10 ^ -341 * 2 ^ -1076`, so that the seventeen digit
grid of the least positive number is whole. -/
def scaleDown : Nat := 341

/-- The value of a finite number. -/
def scaled (x : Double) : Nat := 4 * x.units * Nat.pow 10 scaleDown

/-- One unit in the last decimal place, `10 ^ (place - 341)`. -/
def place (n : Nat) : Nat := Nat.pow 10 n * Nat.pow 2 1076

/-- The least real that rounds to the number, where the end itself does. -/
def lowerEnd (x : Double) : Nat :=
  (4 * x.units - (if x.isNarrowBelow then x.gap else 2 * x.gap)) * Nat.pow 10 scaleDown

/-- The greatest real that rounds to the number, where the end itself does. -/
def upperEnd (x : Double) : Nat := (4 * x.units + 2 * x.gap) * Nat.pow 10 scaleDown

/-- Whether the real `r` rounds to the number. The ends of its interval do so if the last bit of
the fraction is even. -/
def roundsTo (x : Double) (r : Nat) : Bool :=
  if x.fraction.val % 2 = 0 then decide (x.lowerEnd ≤ r) && decide (r ≤ x.upperEnd)
  else decide (x.lowerEnd < r) && decide (r < x.upperEnd)

/-- The nearest of the number's two neighbours on the grid of multiples of `place n` that rounds
to the number. -/
def neighbour? (tie : Tie) (x : Double) (n : Nat) : Option Nat :=
  let below := x.scaled / place n
  let low := below * place n
  let high := (below + 1) * place n
  match x.roundsTo low, x.roundsTo high with
  | true, false => some below
  | false, true => some (below + 1)
  | false, false => none
  | true, true =>
    let twice := 2 * x.scaled
    if twice < low + high then some below
    else if low + high < twice then some (below + 1)
    else match tie with
      | .up => some (below + 1)
      | .toEven => some (below + below % 2)

/-- The number of places of the leading digit above `10 ^ -341`. -/
def leadingPlace (x : Double) : Nat := countDigits (x.scaled / place 0)

/-- The shortest decimal of a finite number. -/
def shortest (tie : Tie) (x : Double) : Decimal :=
  if x.units = 0 then ⟨0, 0⟩
  else
    let lead := x.leadingPlace
    let hit := (List.range 17).findSome? fun k =>
      let n := lead - (k + 1)
      (x.neighbour? tie n).map fun digits => (⟨digits, n - scaleDown⟩ : Decimal)
    (hit.getD ⟨x.scaled / place (lead - 17), (lead - 17 : Nat) - scaleDown⟩).trim 20

end LoopNest.Double
