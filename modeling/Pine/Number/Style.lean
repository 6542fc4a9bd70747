import Pine.Number.Shortest

/-!
# Number texts

A number is written with its shortest digits, either positionally or with an exponent. Where
positional writing ends, and how many digits an exponent has at least, is a choice of the format
that the number is written for.
-/

namespace Pine

/-- How a format writes numbers. A number with the leading digit at `10 ^ k` is written
positionally if `least ≤ k < past`. -/
structure NumberStyle where
  /-- The least position of a leading digit that is written positionally. -/
  least : Int
  /-- The first position of a leading digit that is written with an exponent. -/
  past : Int
  /-- The least number of digits of an exponent. -/
  exponentWidth : Nat

namespace NumberStyle

/-- Zeros. -/
def zeros (n : Nat) : List Char := List.replicate n '0'

/-- Digits with a decimal point. -/
def positional (d : Decimal) : List Char :=
  let before := d.point.toNat
  let whole := if before = 0 then ['0'] else d.digits.take before ++ zeros (before - d.digits.length)
  let fraction := zeros (-d.point).toNat ++ d.digits.drop before
  if d.digits.length ≤ before then whole else whole ++ '.' :: fraction

/-- Digits with an exponent. -/
def exponential (width : Nat) (d : Decimal) : List Char :=
  let exponent := d.point - 1
  let digits := Nat.toDigits 10 exponent.natAbs
  let fraction := d.digits.drop 1
  d.digits.take 1 ++ (if fraction.isEmpty then [] else '.' :: fraction) ++
    ['e', if exponent < 0 then '-' else '+'] ++ zeros (width - digits.length) ++ digits

/-- The text of a decimal. -/
def writeDecimal (style : NumberStyle) (d : Decimal) : List Char :=
  if style.least ≤ d.point - 1 ∧ d.point - 1 < style.past then positional d
  else exponential style.exponentWidth d

/-- The text of a number. -/
def write (style : NumberStyle) : Binary64 → String
  | .nan => "NaN"
  | .infinite negative => if negative then "-Inf" else "+Inf"
  | .finite negative m e =>
    let text := if m = 0 then ['0'] else style.writeDecimal (Binary64.shortest m e)
    String.ofList (if negative then '-' :: text else text)

end NumberStyle

end Pine
