/-! Double-precision numbers as exact data: a sign, an exponent field and a fraction field. A finite
number is a whole multiple of the least positive one, so all arithmetic here is on naturals. -/
namespace LoopNest

/-- A binary floating-point number of 64 bits, by its three fields. The fraction has 52 bits. -/
structure Double where
  negative : Bool
  exponent : Fin 2048
  fraction : Fin 4503599627370496
  deriving DecidableEq

namespace Double

def isNaN (x : Double) : Bool := x.exponent == 2047 && x.fraction != 0

def isInfinite (x : Double) : Bool := x.exponent == 2047 && x.fraction == 0

def isFinite (x : Double) : Bool := x.exponent != 2047

def nan : Double := ⟨false, 2047, 2251799813685248⟩

def infinity (negative : Bool) : Double := ⟨negative, 2047, 0⟩

def zero (negative : Bool) : Double := ⟨negative, 0, 0⟩

def one : Double := ⟨false, 1023, 0⟩

/-- The distance to the next larger magnitude, in multiples of the least positive number. -/
def gap (x : Double) : Nat := Nat.pow 2 (x.exponent.val - 1)

/-- The magnitude of a finite number in multiples of the least positive one, `2 ^ -1074`. -/
def units (x : Double) : Nat :=
  if x.exponent.val = 0 then x.fraction.val else (Nat.pow 2 52 + x.fraction.val) * x.gap

/-- Whether the gap below is half the gap above: at the powers of two. -/
def isNarrowBelow (x : Double) : Bool := x.fraction == 0 && decide (1 < x.exponent.val)

/-- The number of that magnitude, if it has at most 53 significant bits; infinity past the range. -/
def ofUnits (negative : Bool) (n : Nat) : Double :=
  if n < Nat.pow 2 52 then ⟨negative, 0, Fin.ofNat _ n⟩
  else
    let exponent := n.log2 - 51
    if exponent < 2047 then
      ⟨negative, Fin.ofNat _ exponent, Fin.ofNat _ (n / Nat.pow 2 (exponent - 1))⟩
    else infinity negative

/-- The quotient rounded to the nearest whole number, a half to the even neighbour. -/
def roundDiv (num den : Nat) : Nat :=
  let q := num / den
  let twice := 2 * (num % den)
  if den < twice ∨ (twice = den ∧ q % 2 = 1) then q + 1 else q

/-- The multiple of the least positive number nearest to `num / den` of them that has 53
significant bits. -/
def nearestUnits (num den : Nat) : Nat :=
  let shift := (num / den).log2 - 52
  roundDiv num (den * Nat.pow 2 shift) * Nat.pow 2 shift

def countDigits (n : Nat) : Nat := (Nat.toDigits 10 n).length

/-- The number nearest to `digits * 10 ^ scale`. Magnitudes that are out of range by their number
of digits alone are settled first, so that no huge power is formed. -/
def ofDecimal (negative : Bool) (digits : Nat) (scale : Int) : Double :=
  let magnitude : Int := countDigits digits + scale
  if digits = 0 then zero negative
  else if magnitude < -330 then zero negative
  else if 310 < magnitude then infinity negative
  else
    ofUnits negative (nearestUnits (digits * Nat.pow 10 scale.toNat * Nat.pow 2 1074)
      (Nat.pow 10 (-scale).toNat))

end Double
end LoopNest
