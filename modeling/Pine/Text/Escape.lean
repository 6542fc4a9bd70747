import Pine.Text.Quote

/-!
# Escaped strings

Scripts and descriptions share one way to write a string between double quotes. The quote and the
backslash are escaped, five control characters have a letter, and the other control characters,
the characters with a meaning in markup and the two line separators of Unicode are written by
their code point, so that the text can be placed anywhere. All else stands for itself.
-/

namespace Pine.Text

/-- A character by its code point in four hexadecimal digits. -/
def codeEscape (c : Char) : List Char := ['\\', 'u'] ++ hexDigits 4 c.toNat

/-- The characters above the control characters that are written by their code point. -/
def isGuarded (c : Char) : Bool :=
  c = '<' || c = '>' || c = '&' || c = '\u2028' || c = '\u2029'

/-- One character of a string. -/
def escapedChar (c : Char) : List Char :=
  if c = '"' || c = '\\' then ['\\', c]
  else if c = '\n' then ['\\', 'n']
  else if c = '\r' then ['\\', 'r']
  else if c = '\t' then ['\\', 't']
  else if c = '\x08' then ['\\', 'b']
  else if c = '\x0c' then ['\\', 'f']
  else if c.toNat < 0x20 || isGuarded c then codeEscape c
  else [c]

/-- A string between double quotes. -/
def escaped (s : String) : String :=
  String.ofList ('"' :: s.toList.flatMap escapedChar ++ ['"'])

end Pine.Text
