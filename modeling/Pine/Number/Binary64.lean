/-!
# Numbers of a script

A number of a script is a binary floating point number of 64 bits. It is kept as exact data: a
sign, a mantissa below 2^53 and a power of two, so that comparing, rounding and printing are
computations with natural numbers and integers.
-/

namespace Pine

/-- A binary floating point number of 64 bits. -/
inductive Binary64 where
  /-- `mantissa * 2 ^ exponent` with a sign. -/
  | finite (negative : Bool) (mantissa : Nat) (exponent : Int)
  | infinite (negative : Bool)
  | nan
  deriving DecidableEq, Repr

namespace Binary64

/-- The least exponent of a finite number. -/
def leastExponent : Int := -1074

/-- The greatest exponent of a finite number. -/
def greatestExponent : Int := 971

/-- A fraction scaled by a power of two: `n / d * 2 ^ shift`. -/
def scaled (n d : Nat) (shift : Int) : Nat × Nat :=
  match shift with
  | .ofNat k => (n * Nat.pow 2 k, d)
  | .negSucc k => (n, d * Nat.pow 2 (k + 1))

/-- A fraction rounded to a natural number, a half to the even neighbour. -/
def roundHalfEven (n d : Nat) : Nat :=
  let q := n / d
  let twice := 2 * (n % d)
  if twice < d then q else if d < twice then q + 1 else q + q % 2

/-- The number nearest to a positive fraction, ties to the even mantissa; none past the greatest
number. -/
def magnitude? (n d : Nat) : Option (Nat × Int) :=
  if n = 0 then some (0, leastExponent)
  else
    -- `2 ^ (k - 1) < n / d < 2 ^ (k + 1)`
    let k : Int := (Nat.log2 n : Int) - Nat.log2 d
    let low := max (k - 53) leastExponent
    let (a, b) := scaled n d (-low)
    let e := if a / b < Nat.pow 2 53 then low else low + 1
    let (a, b) := scaled n d (-e)
    let m := roundHalfEven a b
    let (m, e) := if m = Nat.pow 2 53 then (Nat.pow 2 52, e + 1) else (m, e)
    if greatestExponent < e then none else some (m, e)

/-- The number nearest to a fraction with a sign; none past the greatest number. -/
def ofRatio? (negative : Bool) (n d : Nat) : Option Binary64 :=
  (magnitude? n d).map fun (m, e) => finite negative m e

/-- The number with the opposite sign. -/
def neg : Binary64 → Binary64
  | finite s m e => finite (!s) m e
  | infinite s => infinite (!s)
  | nan => nan

/-- The value of a finite number in units of `2 ^ leastExponent`. -/
def units (negative : Bool) (m : Nat) (e : Int) : Int :=
  let n : Int := (m * Nat.pow 2 (e - leastExponent).toNat : Nat)
  if negative then -n else n

/-- The order of numbers; nothing is less than or greater than the value that is not a number. -/
def lt : Binary64 → Binary64 → Bool
  | nan, _ | _, nan => false
  | finite s m e, finite s' m' e' => units s m e < units s' m' e'
  | infinite s, infinite s' => s && !s'
  | infinite s, finite .. => s
  | finite .., infinite s => !s

/-- A small natural number. -/
def ofNat (n : Nat) : Binary64 := (ofRatio? false n 1).getD (infinite false)

/-- Whether a number is finite without a fraction. -/
def isInteger : Binary64 → Bool
  | finite _ m e =>
    match e with
    | .ofNat _ => true
    | .negSucc k => m % Nat.pow 2 (k + 1) = 0
  | _ => false

/-- The least integer of 64 bits. -/
def leastInteger : Int := -9223372036854775808

/-- The integer that a number holds after its fraction is dropped. What does not fit into 64 bits
becomes the least integer that does. -/
def truncate : Binary64 → Int
  | finite s m e =>
    let (a, b) := scaled m 1 e
    let n : Int := (a / b : Nat)
    let n := if s then -n else n
    if leastInteger ≤ n ∧ n < -leastInteger then n else leastInteger
  | _ => leastInteger

end Binary64

end Pine
