/-!
# Integers in settings and on command lines

An integer is written in base ten, or in base two, eight or sixteen behind `0b`, `0o` or `0x`; a
leading zero alone stands for base eight. Underscores may separate digits. Values have 64 bits.
-/

namespace Pine

/-- Why a text is no integer. -/
inductive IntegerFault where
  | malformed
  | outOfRange
  deriving DecidableEq, Repr

namespace Integer

/-- The value of a digit in a base. -/
def digit? (base : Nat) (c : Char) : Option Nat :=
  let value? :=
    if '0' ≤ c && c ≤ '9' then some (c.toNat - '0'.toNat)
    else if 'a' ≤ c.toLower && c.toLower ≤ 'z' then some (c.toLower.toNat - 'a'.toNat + 10)
    else none
  value?.filter (· < base)

/-- The value of digits with underscores behind those that are read already. A value that does not
fit ends the reading. -/
def readDigits (base : Nat) : Nat → List Char → Except IntegerFault Nat
  | n, [] => .ok n
  | n, c :: cs =>
    if c = '_' then readDigits base n cs
    else
      match digit? base c with
      | none => .error .malformed
      | some d =>
        let n := n * base + d
        if n < Nat.pow 2 64 then readDigits base n cs else .error .outOfRange

/-- The base that the start of a number tells, and the digits behind that start. -/
def split (cs : List Char) : Nat × List Char :=
  match cs with
  | '0' :: x :: c :: rest =>
    match x.toLower with
    | 'b' => (2, c :: rest)
    | 'o' => (8, c :: rest)
    | 'x' => (16, c :: rest)
    | _ => (8, x :: c :: rest)
  | '0' :: rest => (8, rest)
  | cs => (10, cs)

/-- Whether underscores only stand behind a digit and in front of one; `afterDigit` tells what came
before. -/
def separates (base : Nat) : Bool → List Char → Bool
  | _, [] => true
  | afterDigit, '_' :: cs =>
    afterDigit && (cs.head?.any fun c => (digit? base c).isSome) && separates base false cs
  | _, c :: cs => separates base (digit? base c).isSome cs

/-- The value of a number without a sign. -/
def readNatural (cs : List Char) : Except IntegerFault Nat :=
  if cs.isEmpty then .error .malformed
  else
    let (base, digits) := split cs
    match readDigits base 0 digits with
    | .error fault => .error fault
    | .ok n =>
      -- behind a start that tells the base, an underscore stands as behind a digit
      if separates base (base != 10) digits then .ok n else .error .malformed

/-- The integer that a text stands for. -/
def read (text : String) : Except IntegerFault Int :=
  let (negative, cs) :=
    match text.toList with
    | '+' :: cs => (false, cs)
    | '-' :: cs => (true, cs)
    | cs => (false, cs)
  match readNatural cs with
  | .error fault => .error fault
  | .ok n =>
    if negative then (if n ≤ Nat.pow 2 63 then .ok (-n) else .error .outOfRange)
    else if n < Nat.pow 2 63 then .ok n
    else .error .outOfRange

end Integer

end Pine
