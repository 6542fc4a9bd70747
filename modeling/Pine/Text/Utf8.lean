/-!
# Bytes and characters

Text arrives as bytes in UTF-8. Every maximal well-formed sequence is one character; every byte
that belongs to no such sequence is read as one replacement character U+FFFD.
-/

namespace Pine.Text

/-- What stands for a byte that is part of no character. -/
def replacement : Char := Char.ofNat 0xFFFD

/-- A continuation byte between two bounds. -/
def continues (low high : Nat) (b : UInt8) : Bool := low ≤ b.toNat && b.toNat ≤ high

/-- The payload of a continuation byte. -/
def payload (b : UInt8) : Nat := b.toNat % 0x40

/-- The code point that starts at a byte, and how many further bytes belong to it. The bounds on
the second byte leave out overlong forms, surrogates and code points past U+10FFFF. -/
def leadingScalar? (b : UInt8) (rest : List UInt8) : Option (Nat × Nat) :=
  let n := b.toNat
  if n < 0x80 then some (n, 0)
  else if n < 0xC2 then none
  else if n < 0xE0 then
    match rest with
    | b1 :: _ => if continues 0x80 0xBF b1 then some ((n - 0xC0) * 0x40 + payload b1, 1) else none
    | _ => none
  else if n < 0xF0 then
    let low := if n = 0xE0 then 0xA0 else 0x80
    let high := if n = 0xED then 0x9F else 0xBF
    match rest with
    | b1 :: b2 :: _ =>
      if continues low high b1 && continues 0x80 0xBF b2 then
        some (((n - 0xE0) * 0x40 + payload b1) * 0x40 + payload b2, 2)
      else none
    | _ => none
  else if n < 0xF5 then
    let low := if n = 0xF0 then 0x90 else 0x80
    let high := if n = 0xF4 then 0x8F else 0xBF
    match rest with
    | b1 :: b2 :: b3 :: _ =>
      if continues low high b1 && continues 0x80 0xBF b2 && continues 0x80 0xBF b3 then
        some ((((n - 0xF0) * 0x40 + payload b1) * 0x40 + payload b2) * 0x40 + payload b3, 3)
      else none
    | _ => none
  else none

/-- The characters of a byte list, one replacement character for each stray byte. -/
def decode : List UInt8 → List Char
  | [] => []
  | b :: rest =>
    match leadingScalar? b rest with
    | some (code, more) => Char.ofNat code :: decode (rest.drop more)
    | none => replacement :: decode rest
termination_by bytes => bytes.length
decreasing_by all_goals simp only [List.length_drop, List.length_cons]; omega

/-- The bytes of a string. -/
def encode (s : String) : List UInt8 := s.toUTF8.toList

end Pine.Text
