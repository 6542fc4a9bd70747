import Pine.Text.DecimalDigit

/-!
# Source text

A source is a list of characters. Before anything else it is brought to one convention for line
ends, and it may name the language version it is written for in a comment of the form
`//@version=5` that starts a line.
-/

namespace Pine.Source

/-- The byte-order mark. -/
def mark : Char := Char.ofNat 0xFEFF

/-- The text without a byte-order mark in front. -/
def dropMark : List Char → List Char
  | c :: cs => if c = mark then cs else c :: cs
  | [] => []

/-- A carriage return, alone or before a newline, becomes a newline. -/
def unifyLineEnds : List Char → List Char
  | '\r' :: '\n' :: cs => '\n' :: unifyLineEnds cs
  | '\r' :: cs => '\n' :: unifyLineEnds cs
  | c :: cs => c :: unifyLineEnds cs
  | [] => []

/-- The text in the form that the other stages read. -/
def normalize (cs : List Char) : List Char := unifyLineEnds (dropMark cs)

/-! ### The version comment -/

/-- The characters that separate words within a line. -/
def isBlank (c : Char) : Bool := c = ' ' || c = '\t'

/-- What follows `word` at the head of the text. -/
def after? : List Char → List Char → Option (List Char)
  | [], cs => some cs
  | _ :: _, [] => none
  | w :: ws, c :: cs => if w = c then after? ws cs else none

/-- The text after any blanks and then `word`. -/
def afterBlanks? (word : String) (cs : List Char) : Option (List Char) :=
  after? word.toList (cs.dropWhile isBlank)

/-- The digits of a version comment that starts the given text. -/
def pragmaDigits? (line : List Char) : Option (List Char) := do
  let cs ← afterBlanks? "//" line
  let cs ← afterBlanks? "@version" cs
  let cs ← afterBlanks? "=" cs
  match (cs.dropWhile isBlank).takeWhile Text.isDecimalDigit with
  | [] => none
  | digits => some digits

/-- The digits of the first version comment at the start of a line. -/
def versionDigits? : List Char → Option (List Char)
  | cs => (pragmaDigits? cs).or (laterLines cs)
where
  /-- The digits of the first version comment after the next line end. -/
  laterLines : List Char → Option (List Char)
    | [] => none
    | c :: cs => if c = '\n' then (pragmaDigits? cs).or (laterLines cs) else laterLines cs

/-- The value of a run of ASCII digits; other digits and values of 2^63 or more have none. -/
def digitsValue? (digits : List Char) : Option Nat :=
  if digits.all Char.isDigit then
    let n := digits.foldl (fun n c => 10 * n + (c.toNat - '0'.toNat)) 0
    if n < Nat.pow 2 63 then some n else none
  else none

/-- The version named by the first version comment. A comment whose number cannot be read hides
the ones after it. -/
def version? (cs : List Char) : Option Nat := (versionDigits? cs).bind digitsValue?

end Pine.Source
