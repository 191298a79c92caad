import LoopNest.Double.Shortest

/-! Written forms of numbers. -/
namespace LoopNest.Double

/-- How a decimal is laid out. -/
structure Layout where
  /-- The least and the greatest exponent of the leading digit that is written without one. -/
  least : Int
  greatest : Int
  /-- Whether a positive exponent has its sign. -/
  signedExponent : Bool
  tie : Tie

def digitText (n : Nat) : String := String.ofList (Nat.toDigits 10 n)

def zeros (n : Nat) : String := String.ofList (List.replicate n '0')

/-- Digits with a point after the first `whole` of them, and at least one digit after the point. -/
def withPoint (digits : List Char) (whole : Nat) : String :=
  String.ofList (digits.take whole) ++ "." ++
    (if digits.length ≤ whole then "0" else String.ofList (digits.drop whole))

/-- Positional notation, with at least one digit on either side of the point. -/
def positional (d : Decimal) : String :=
  let digits := Nat.toDigits 10 d.digits
  if d.exponent < 0 then "0." ++ zeros ((-d.exponent).toNat - 1) ++ String.ofList digits
  else
    let whole := d.exponent.toNat + 1
    withPoint (digits ++ List.replicate (whole - digits.length) '0') whole

/-- One digit, the other digits after a point if there are any, and the exponent. -/
def scientific (layout : Layout) (d : Decimal) : String :=
  let digits := Nat.toDigits 10 d.digits
  let mantissa := if digits.length ≤ 1 then String.ofList digits else withPoint digits 1
  let sign := if d.exponent < 0 then "-" else if layout.signedExponent then "+" else ""
  mantissa ++ "e" ++ sign ++ digitText d.exponent.natAbs

/-- The written form of a finite number. -/
def renderFinite (layout : Layout) (x : Double) : String :=
  let d := x.shortest layout.tie
  let body :=
    if x.units = 0 then "0.0"
    else if layout.least ≤ d.exponent ∧ d.exponent ≤ layout.greatest then positional d
    else scientific layout d
  (if x.negative then "-" else "") ++ body

/-- Program text shows numbers between `1e-4` and `1e16` without an exponent; a tie goes up. -/
def programLayout : Layout := ⟨-4, 15, false, .up⟩

/-- Interchange text shows numbers between `1e-5` and `1e16` without an exponent and signs every
exponent; a tie goes to the even digit. -/
def interchangeLayout : Layout := ⟨-5, 15, true, .toEven⟩

/-- The written form in program text. -/
def render (x : Double) : String :=
  if x.isNaN then "NaN"
  else if x.isInfinite then (if x.negative then "-inf" else "inf")
  else x.renderFinite programLayout

/-- The written form in interchange text, which has none for what is not finite. -/
def renderInterchange? (x : Double) : Option String :=
  if x.isFinite then some (x.renderFinite interchangeLayout) else none

end LoopNest.Double
