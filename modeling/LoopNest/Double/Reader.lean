import LoopNest.Double.Basic

/-! Decimal texts: a sign, digits with an optional fraction, and an optional exponent. -/
namespace LoopNest.Double

def digitValue (c : Char) : Nat := c.toNat - '0'.toNat

/-- The number written by a list of digits. -/
def digitsValue (ds : List Char) : Nat := ds.foldl (fun n c => 10 * n + digitValue c) 0

/-- The sign in front, whether it is a minus. -/
def takeSign : List Char → Bool × List Char
  | '-' :: cs => (true, cs)
  | '+' :: cs => (false, cs)
  | cs => (false, cs)

/-- An exponent part that ends the text, or no such part. -/
def exponentPart? : List Char → Option Int
  | [] => some 0
  | c :: cs =>
    let (negative, ds) := takeSign cs
    if (c = 'e' ∨ c = 'E') ∧ ds ≠ [] ∧ ds.all Char.isDigit then
      some (if negative then -(digitsValue ds : Int) else digitsValue ds)
    else none

/-- The fraction digits after the whole part, and what follows them. -/
def fractionPart : List Char → List Char × List Char
  | '.' :: cs => (cs.takeWhile Char.isDigit, cs.dropWhile Char.isDigit)
  | cs => ([], cs)

/-- The number nearest to an unsigned decimal text with at least one digit. -/
def ofMagnitude? (negative : Bool) (cs : List Char) : Option Double :=
  let whole := cs.takeWhile Char.isDigit
  let (fraction, rest) := fractionPart (cs.dropWhile Char.isDigit)
  match whole ++ fraction, exponentPart? rest with
  | [], _ | _, none => none
  | digits, some exponent =>
    some (ofDecimal negative (digitsValue digits) (exponent - fraction.length))

/-- The number nearest to a decimal text. -/
def ofText? (text : List Char) : Option Double :=
  let (negative, body) := takeSign text
  ofMagnitude? negative body

end LoopNest.Double
