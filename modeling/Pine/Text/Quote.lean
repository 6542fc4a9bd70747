import Pine.Text.Printable

/-!
# Quoted text in messages

Messages and token listings show text between quotes. Printable characters stand for themselves,
the quote and the backslash are escaped, seven control characters have a letter, and every other
character is written by its code point in two, four or eight hexadecimal digits.
-/

namespace Pine.Text

/-- The lowest `width` hexadecimal digits of `n`, in lower case. -/
def hexDigits : Nat → Nat → List Char
  | 0, _ => []
  | width + 1, n => hexDigits width (n / 16) ++ [Nat.digitChar (n % 16)]

/-- The escape of a character that is not printable. -/
def escapeHidden (c : Char) : List Char :=
  let n := c.toNat
  if n = 7 then ['\\', 'a']
  else if n = 8 then ['\\', 'b']
  else if n = 12 then ['\\', 'f']
  else if n = 10 then ['\\', 'n']
  else if n = 13 then ['\\', 'r']
  else if n = 9 then ['\\', 't']
  else if n = 11 then ['\\', 'v']
  else if n < 0x20 || n = 0x7F then ['\\', 'x'] ++ hexDigits 2 n
  else if n < 0x10000 then ['\\', 'u'] ++ hexDigits 4 n
  else ['\\', 'U'] ++ hexDigits 8 n

/-- One character between quotes of the given kind. -/
def escapeChar (mark c : Char) : List Char :=
  if c = mark || c = '\\' then ['\\', c]
  else if isPrintable c then [c]
  else escapeHidden c

/-- A string between double quotes. -/
def quote (s : String) : String :=
  String.ofList ('"' :: s.toList.flatMap (escapeChar '"') ++ ['"'])

/-- A character between single quotes. -/
def quoteChar (c : Char) : String :=
  String.ofList ('\'' :: escapeChar '\'' c ++ ['\''])

/-- `s` followed by as many blanks as it lacks characters to `width`. -/
def padRight (width : Nat) (s : String) : String :=
  s ++ String.ofList (List.replicate (width - s.length) ' ')

end Pine.Text
