import Pine.Source
import Pine.Token.Basic
import Pine.Text.Utf8

/-!
# Pieces of source text

A source is cut from left to right into pieces: words, numbers, strings, colors, operators,
punctuation, blanks, comments and line breaks. Cutting does not look at brackets or indentation;
that is the business of the layout. Text that starts no piece becomes one faulty piece that
reaches to the end of the source, so the texts of the pieces always concatenate to the source.

## Main results

* `Piece.flatMap_text_split`: no character is lost or invented.
-/

namespace Pine

open Token (Kind)

/-! ### Forms -/

/-- Why text starts no piece. -/
inductive Piece.Fault where
  /-- A block comment that is never closed. -/
  | openComment
  /-- A string that is not closed on its line. -/
  | openString
  /-- A character that starts no token. -/
  | stray (c : Char)
  deriving DecidableEq, Repr

/-- How a fault is reported. -/
def Piece.Fault.message : Piece.Fault → String
  | openComment => "unterminated block comment"
  | openString => "unterminated string literal"
  | stray c => s!"unexpected character {Text.quoteChar c}"

/-- What a piece of text is. -/
inductive Piece.Form where
  /-- Spaces and tabs. -/
  | blank
  /-- A newline with the spaces and tabs after it. -/
  | lineBreak
  /-- A comment that reaches to the end of its line. -/
  | lineComment
  /-- A comment between `/*` and `*/`. -/
  | blockComment
  /-- A token with its kind and lexeme. -/
  | token (kind : Kind) (lexeme : String)
  /-- Text that cannot be cut. -/
  | fault (cause : Piece.Fault)
  deriving DecidableEq, Repr

/-- A piece of text with its form. -/
structure Piece where
  /-- What the piece is. -/
  form : Piece.Form
  /-- The characters of the piece. -/
  text : List Char
  deriving DecidableEq, Repr

namespace Piece

/-! ### Character classes -/

/-- The ASCII digits. -/
def isDigit (c : Char) : Bool := '0' ≤ c && c ≤ '9'

/-- The characters that start a word: ASCII letters and the underscore. -/
def isWordStart (c : Char) : Bool :=
  ('a' ≤ c && c ≤ 'z') || ('A' ≤ c && c ≤ 'Z') || c = '_'

/-- The characters that continue a word. -/
def isWordPart (c : Char) : Bool := isWordStart c || isDigit c

/-- The value of a hexadecimal digit. -/
def hexValue? (c : Char) : Option Nat :=
  if isDigit c then some (c.toNat - '0'.toNat)
  else if 'a' ≤ c && c ≤ 'f' then some (c.toNat - 'a'.toNat + 10)
  else if 'A' ≤ c && c ≤ 'F' then some (c.toNat - 'A'.toNat + 10)
  else none

/-- The hexadecimal digits. -/
def isHex (c : Char) : Bool := (hexValue? c).isSome

/-- The length of the run of characters of a class at the head of a text. -/
def run (p : Char → Bool) (cs : List Char) : Nat := (cs.takeWhile p).length

/-! ### Words, operators and punctuation -/

/-- The words with a meaning of their own. -/
def keywords : List String :=
  ["if", "else", "for", "to", "by", "in", "while", "var", "varip", "return", "break", "continue",
    "switch", "type", "import", "export", "method", "as"]

/-- The operators that are spelled as words. -/
def wordOperators : List String := ["and", "or", "not"]

/-- The kind of a word. -/
def wordKind (word : String) : Kind :=
  if word = "true" || word = "false" then .boolean
  else if word = "na" then .na
  else if word ∈ wordOperators then .operator
  else if word ∈ keywords then .keyword
  else .identifier

/-- The operators spelled with symbols, those of two characters first. -/
def operators : List String :=
  [":=", "==", "!=", ">=", "<=", "=>", "+=", "-=", "*=", "/=", "%=",
    "=", "+", "-", "*", "/", "%", ">", "<", "?"]

/-- The operator at the head of a text. -/
def operator? (cs : List Char) : Option String :=
  operators.find? fun op => op.toList.isPrefixOf cs

/-- The kind of a punctuation mark. -/
def punctuation? : Char → Option Kind
  | '(' => some .lparen
  | ')' => some .rparen
  | '[' => some .lbracket
  | ']' => some .rbracket
  | '\x7b' => some .lbrace
  | '\x7d' => some .rbrace
  | ',' => some .comma
  | '.' => some .dot
  | ':' => some .colon
  | _ => none

/-! ### Numbers -/

/-- The length of an exponent such as `e5` or `E-3` at the head of a text, zero without one. -/
def exponentLength : List Char → Nat
  | e :: cs =>
    if e = 'e' || e = 'E' then
      match cs with
      | d :: ds =>
        if isDigit d then 1 + run isDigit cs
        else if (d = '+' || d = '-') && ds.head?.any isDigit then 2 + run isDigit ds
        else 0
      | [] => 0
    else 0
  | [] => 0

/-- The length of a fraction such as `.5` or `.` at the head of a text, zero without one. -/
def fractionLength : List Char → Nat
  | '.' :: cs => 1 + run isDigit cs
  | _ => 0

/-- The length of the number at the head of a text: digits, a fraction, an exponent. -/
def numberLength (cs : List Char) : Nat :=
  let whole := run isDigit cs
  let fraction := fractionLength (cs.drop whole)
  whole + fraction + exponentLength (cs.drop (whole + fraction))

/-! ### Comments -/

/-- The length of the rest of a block comment in which `nested` inner comments are open. -/
def commentRest (nested : Nat) : List Char → Option Nat
  | '/' :: '*' :: cs => (commentRest (nested + 1) cs).map (· + 2)
  | '*' :: '/' :: cs =>
    match nested with
    | 0 => some 2
    | n + 1 => (commentRest n cs).map (· + 2)
  | _ :: cs => (commentRest nested cs).map (· + 1)
  | [] => none

/-! ### Strings -/

/-- The character with a code; a surrogate has none and is replaced. -/
def scalar (n : Nat) : Char :=
  if 0xD800 ≤ n ∧ n ≤ 0xDFFF then Text.replacement else Char.ofNat n

/-- The character that a one-letter escape stands for; any other character stands for itself. -/
def escaped (c : Char) : Char :=
  match c with
  | 'n' => '\n'
  | 't' => '\t'
  | 'r' => '\r'
  | '0' => '\x00'
  | 'b' => '\x08'
  | 'f' => '\x0c'
  | 'v' => '\x0b'
  | c => c

/-- The code written by two hexadecimal digits. -/
def code2? (a b : Char) : Option Nat := do
  return 16 * (← hexValue? a) + (← hexValue? b)

/-- The code written by four hexadecimal digits. -/
def code4? (a b c d : Char) : Option Nat := do
  return 256 * (← code2? a b) + (← code2? c d)

/-- What the text after a backslash stands for, and the number of its characters. A line end stands
for nothing; `x` and `u` with too few digits stand for themselves. -/
def escape : List Char → Option (Option Char × Nat)
  | [] => none
  | c :: cs =>
    if c = '\n' then some (none, 1)
    else if c = 'x' then
      match cs with
      | a :: b :: _ =>
        match code2? a b with
        | some n => some (some (scalar n), 3)
        | none => some (some 'x', 1)
      | _ => some (some 'x', 1)
    else if c = 'u' then
      match cs with
      | a :: b :: d :: e :: _ =>
        match code4? a b d e with
        | some n => some (some (scalar n), 5)
        | none => some (some 'u', 1)
      | _ => some (some 'u', 1)
    else some (some (escaped c), 1)

/-- The rest of a string that opened with `mark`: its decoded characters and its length with the
closing mark. A line may only end inside a string after a backslash. -/
def stringRest (mark : Char) : List Char → Option (List Char × Nat)
  | [] => none
  | c :: cs =>
    if c = mark then some ([], 1)
    else if c = '\n' then none
    else if c = '\\' then
      match escape cs with
      | none => none
      | some (value, width) =>
        (stringRest mark (cs.drop width)).map fun (rest, n) => (value.toList ++ rest, n + width + 1)
    else (stringRest mark cs).map fun (rest, n) => (c :: rest, n + 1)
termination_by cs => cs.length
decreasing_by all_goals simp only [List.length_drop, List.length_cons]; omega

/-! ### Cutting -/

/-- A token whose lexeme is its text: the first character and `more` of those after it. -/
def plain (kind : Kind) (c : Char) (cs : List Char) (more : Nat) : Form × Nat :=
  (.token kind (String.ofList (c :: cs.take more)), more)

/-- The form of the piece that starts with `c` and the number of its further characters, which
are the first of `cs`. -/
def classify (c : Char) (cs : List Char) : Form × Nat :=
  if c = '\n' then (.lineBreak, run Source.isBlank cs)
  else if Source.isBlank c then (.blank, run Source.isBlank cs)
  else if c = '/' && cs.head? = some '/' then (.lineComment, run (· ≠ '\n') cs)
  else if c = '/' && cs.head? = some '*' then
    match commentRest 0 (cs.drop 1) with
    | some n => (.blockComment, n + 1)
    | none => (.fault .openComment, cs.length)
  else if isWordStart c then
    let more := run isWordPart cs
    plain (wordKind (String.ofList (c :: cs.take more))) c cs more
  else if isDigit c || (c = '.' && cs.head?.any isDigit) then
    plain .number c cs (numberLength (c :: cs) - 1)
  else if c = '"' || c = '\'' then
    match stringRest c cs with
    | some (value, n) => (.token .string (String.ofList value), n)
    | none => (.fault .openString, cs.length)
  else if c = '#' then
    match run isHex cs with
    | 0 => (.fault (.stray c), cs.length)
    | n => plain .color c cs n
  else
    match operator? (c :: cs) with
    | some op => (.token .operator op, op.length - 1)
    | none =>
      match punctuation? c with
      | some kind => plain kind c cs 0
      | none => (.fault (.stray c), cs.length)

/-- The pieces of a text, from left to right. -/
def split : List Char → List Piece
  | [] => []
  | c :: cs =>
    let (form, more) := classify c cs
    ⟨form, c :: cs.take more⟩ :: split (cs.drop more)
termination_by cs => cs.length
decreasing_by simp only [List.length_drop, List.length_cons]; omega

/-- **The pieces of a text concatenate to the text.** -/
theorem flatMap_text_split (cs : List Char) : (split cs).flatMap text = cs := by
  fun_induction split cs with
  | case1 => rfl
  | case2 c cs form more _ ih => simp [ih]

end Piece

end Pine
