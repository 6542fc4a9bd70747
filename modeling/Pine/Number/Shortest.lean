import Pine.Number.Binary64

/-!
# Shortest decimals

Every finite number has decimals that read back as that number. The shortest decimal is the one
with the fewest digits, and of those the one nearest to the number.

The decimals that read back form an interval around the number, which reaches half way to its
neighbours and holds its ends if the mantissa is even. For one digit, two digits and so on, the
two neighbours of the number on the grid of decimals with so many digits are tested; the first
grid with a hit wins.
-/

namespace Pine

/-- The number `0.digits * 10 ^ point`, where the digits are those of a natural number. -/
structure Decimal where
  /-- The digits, without zeros in front. -/
  digits : List Char
  /-- The number of digits before the decimal point. -/
  point : Int
  deriving DecidableEq, Repr

namespace Decimal

/-- The zero digits at the end carry no value. -/
def strip (digits : List Char) : List Char :=
  (digits.reverse.dropWhile (· = '0')).reverse

/-- The decimal `n * 10 ^ exponent`. -/
def ofScaled (n : Nat) (exponent : Int) : Decimal :=
  let digits := Nat.toDigits 10 n
  ⟨strip digits, digits.length + exponent⟩

end Decimal

namespace Binary64

/-- Compares `a * 10 ^ i` with `b * 2 ^ j`. -/
def compareScaled (a : Nat) (i : Int) (b : Nat) (j : Int) : Ordering :=
  compare (a * Nat.pow 10 i.toNat * Nat.pow 2 (-j).toNat)
    (b * Nat.pow 2 j.toNat * Nat.pow 10 (-i).toNat)

/-- The quotient of `m * 2 ^ e` by `10 ^ i`, rounded down. -/
def quotient (m : Nat) (e i : Int) : Nat :=
  (m * Nat.pow 2 e.toNat * Nat.pow 10 (-i).toNat) / (Nat.pow 10 i.toNat * Nat.pow 2 (-e).toNat)

/-- The least `k` with `m * 2 ^ e < 10 ^ k`, for a positive mantissa. -/
def decimalPoint (m : Nat) (e : Int) : Int :=
  -- `2 ^ b ≤ m * 2 ^ e < 2 ^ (b + 1)`, so the answer is at least `b * log 2` and less than two more
  let b : Int := Nat.log2 m + e
  let k := (b * 30103).fdiv 100000 - 1
  ((List.range 5).map fun (i : Nat) => k + i).find?
    (fun k => compareScaled 1 k m e = .gt) |>.getD k

/-- Whether `n * 10 ^ i` reads back as `m * 2 ^ e`. The gap below a power of two is half the gap
above it, unless the number is too small to have a smaller gap. -/
def readsBack (m : Nat) (e : Int) (n : Nat) (i : Int) : Bool :=
  let below := if m = Nat.pow 2 52 ∧ leastExponent < e then 1 else 2
  let low := compareScaled n i (4 * m - below) (e - 2)
  let high := compareScaled n i (4 * m + 2) (e - 2)
  let ends := m % 2 = 0
  (low = .gt || (ends && low = .eq)) && (high = .lt || (ends && high = .eq))

/-- The hit of a number on the grid of multiples of `10 ^ i`: the nearer of its two neighbours that
read back, and the even one from the middle between them. -/
def hit? (m : Nat) (e i : Int) : Option Nat :=
  let low := quotient m e i
  match readsBack m e low i, readsBack m e (low + 1) i with
  | true, true =>
    match compareScaled (2 * low + 1) i (2 * m) e with
    | .lt => some (low + 1)
    | .eq => some (low + low % 2)
    | .gt => some low
  | true, false => some low
  | false, true => some (low + 1)
  | false, false => none

/-- The shortest decimal of `m * 2 ^ e`, for a positive mantissa. Seventeen digits always suffice. -/
def shortest (m : Nat) (e : Int) : Decimal :=
  let point := decimalPoint m e
  let grids := (List.range 17).map fun (n : Nat) => point - 1 - n
  match grids.findSome? fun i => (hit? m e i).map (Decimal.ofScaled · i) with
  | some d => d
  | none => Decimal.ofScaled (quotient m e (point - 17)) (point - 17)

end Binary64

end Pine
