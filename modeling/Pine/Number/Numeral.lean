import Pine.Number.Binary64

/-!
# Numerals

The texts that stand for a number: a sign, decimal digits with an optional point and exponent, or
`0x` and hexadecimal digits with a binary exponent, or a word for infinity or for the value that is
not a number. Underscores may separate digits. A numeral past the greatest number stands for none.
-/

namespace Pine

/-- The parts of a numeral with digits: `digits * base ^ exponent`, where the base is ten for a
decimal numeral and two for a hexadecimal one. -/
structure Numeral where
  /-- Whether the digits are hexadecimal. -/
  isHex : Bool
  /-- The value of all digits without the point. -/
  digits : Nat
  /-- The exponent that the point and the exponent part come to. -/
  exponent : Int

namespace Numeral

/-- The value of a digit in base ten or sixteen. -/
def digit? (isHex : Bool) (c : Char) : Option Nat :=
  if '0' ≤ c && c ≤ '9' then some (c.toNat - '0'.toNat)
  else if isHex && 'a' ≤ c.toLower && c.toLower ≤ 'f' then
    some (c.toLower.toNat - 'a'.toNat + 10)
  else none

/-- What the digit part of a numeral has come to. -/
structure Mantissa where
  /-- The value of the digits. -/
  value : Nat := 0
  /-- Whether a digit was read. -/
  hasDigits : Bool := false
  /-- The number of digits after the point, once the point was read. -/
  fraction : Option Nat := none

/-- The digits, underscores and at most one point at the head of a text, and what follows. -/
def readMantissa (isHex : Bool) (m : Mantissa) : List Char → Mantissa × List Char
  | [] => (m, [])
  | c :: cs =>
    if c = '_' then readMantissa isHex m cs
    else if c = '.' then
      match m.fraction with
      | some _ => (m, c :: cs)
      | none => readMantissa isHex { m with fraction := some 0 } cs
    else
      match digit? isHex c with
      | none => (m, c :: cs)
      | some d =>
        readMantissa isHex
          { value := m.value * (if isHex then 16 else 10) + d
            hasDigits := true
            fraction := m.fraction.map (· + 1) } cs

/-- The value of an exponent's digits; it stops growing past ten thousand. -/
def exponentValue (cs : List Char) : Nat :=
  cs.foldl (fun n c =>
    match digit? false c with
    | some d => if n < 10000 then 10 * n + d else n
    | none => n) 0

/-- The exponent that a text consists of, without the letter in front. -/
def exponent? (cs : List Char) : Option Int :=
  let (negative, cs) :=
    match cs with
    | '+' :: cs => (false, cs)
    | '-' :: cs => (true, cs)
    | cs => (false, cs)
  match cs with
  | [] => none
  | c :: _ =>
    if (digit? false c).isSome && cs.all fun c => c = '_' || (digit? false c).isSome then
      let n : Int := exponentValue cs
      some (if negative then -n else n)
    else none

/-- Whether the underscores of an unsigned numeral each stand between two digits; the letter of
`0x` counts as a digit. `afterDigit` tells what came before. -/
def separates (isHex : Bool) : Bool → List Char → Bool
  | _, [] => true
  | afterDigit, '_' :: cs =>
    afterDigit && (cs.head?.any fun c => (digit? isHex c).isSome) && separates isHex false cs
  | _, c :: cs => separates isHex (digit? isHex c).isSome cs

/-- The parts of an unsigned numeral. -/
def read? (cs : List Char) : Option Numeral :=
  let (isHex, body) :=
    match cs with
    | '0' :: x :: c :: rest => if x.toLower = 'x' then (true, c :: rest) else (false, cs)
    | _ => (false, cs)
  let (m, rest) := readMantissa isHex {} body
  if !m.hasDigits || !separates isHex isHex body then none
  else
    let places := m.fraction.getD 0
    match rest with
    | [] => if isHex then none else some ⟨false, m.value, -places⟩
    | c :: cs =>
      if c.toLower = (if isHex then 'p' else 'e') then
        (exponent? cs).map fun e => ⟨isHex, m.value, e - (if isHex then 4 * places else places : Nat)⟩
      else none

/-- The number nearest to a numeral. -/
def value? (negative : Bool) (n : Numeral) : Option Binary64 :=
  let base := if n.isHex then 2 else 10
  match n.exponent with
  | .ofNat k => Binary64.ofRatio? negative (n.digits * Nat.pow base k) 1
  | .negSucc k => Binary64.ofRatio? negative n.digits (Nat.pow base (k + 1))

end Numeral

namespace Binary64

/-- A text with its ASCII letters in lower case. -/
def lowered (cs : List Char) : String := String.ofList (cs.map Char.toLower)

/-- The number that an unsigned text stands for. -/
def ofUnsigned? (negative : Bool) (cs : List Char) : Option Binary64 :=
  if lowered cs = "inf" || lowered cs = "infinity" then some (infinite negative)
  else (Numeral.read? cs).bind (·.value? negative)

/-- The number that a text stands for. -/
def ofText? (s : String) : Option Binary64 :=
  match s.toList with
  | '+' :: cs => ofUnsigned? false cs
  | '-' :: cs => ofUnsigned? true cs
  | cs => if lowered cs = "nan" then some nan else ofUnsigned? false cs

end Binary64

end Pine
