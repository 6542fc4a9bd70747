import Pine.Number.Integer
import Pine.Number.Numeral
import Pine.Settings.Moment
import Pine.Token.Piece

/-!
# Settings documents

A settings file is a TOML document: lines that open a table, open an element of an array of tables,
or give a key a value. Reading it yields these lines; what they build is decided later.
-/

namespace Pine

/-- A dotted key as the list of its parts. -/
abbrev Key := List String

namespace Document

mutual

/-- A value as it is written. -/
inductive Literal where
  | integer (value : Int)
  | text (value : String)
  | bool (value : Bool)
  /-- A number with a fraction, a date or a time. -/
  | other
  | array (items : List Literal)
  | table (entries : List Entry)

/-- A key with its value. -/
inductive Entry where
  | mk (key : Key) (value : Literal)

end

/-- Whether a value is an array. -/
def Literal.isArray : Literal → Bool
  | .array _ => true
  | _ => false

/-- A line of a document. -/
inductive Line where
  /-- Opens a table. -/
  | table (key : Key)
  /-- Opens a new element of an array of tables. -/
  | element (key : Key)
  /-- Gives a key a value. -/
  | entry (key : Key) (value : Literal)

/-! ### Characters -/

/-- Blanks inside of a line. -/
def isBlank (c : Char) : Bool := c = ' ' || c = '\t'

/-- The characters of a line end. -/
def isLineEnd (c : Char) : Bool := c = '\n' || c = '\r'

/-- The text behind blanks. -/
def skipBlanks (cs : List Char) : List Char := cs.dropWhile isBlank

/-- Whether the characters are allowed: no control characters other than tabs and line ends, and
no carriage return without a line feed. -/
def isPlain : List Char → Bool
  | [] => true
  | '\r' :: cs => cs.head? = some '\n' && isPlain cs
  | c :: cs =>
    (c = '\t' || c = '\n' || !(c.toNat < 0x20 || c.toNat = 0x7F)) && isPlain cs

/-- The text behind the rest of a line, which holds at most a comment. -/
def endLine? (cs : List Char) : Option (List Char) :=
  match skipBlanks cs with
  | [] => some []
  | '#' :: rest => some (rest.dropWhile fun c => !isLineEnd c)
  | c :: rest => if isLineEnd c then some rest else none

/-- The text behind blanks, line ends and comments. -/
def skipLines : Nat → List Char → List Char
  | 0, cs => cs
  | n + 1, cs =>
    match cs.dropWhile fun c => isBlank c || isLineEnd c with
    | '#' :: rest => skipLines n (rest.dropWhile fun c => !isLineEnd c)
    | rest => rest

/-! ### Strings -/

/-- The value of hexadecimal digits. -/
def hexValue? (cs : List Char) : Option Nat :=
  cs.foldlM (fun n c => (Piece.hexValue? c).map (16 * n + ·)) 0

/-- The character with a code point given in hexadecimal digits. -/
def charOfHex? (cs : List Char) : Option Char := do
  let n ← hexValue? cs
  if n.isValidChar then return Char.ofNat n else none

/-- An escape by a letter. -/
def letterEscape? (c : Char) : Option Char :=
  match c with
  | 'b' => some '\x08'
  | 't' => some '\t'
  | 'n' => some '\n'
  | 'f' => some '\x0c'
  | 'r' => some '\r'
  | '"' => some '"'
  | '\\' => some '\\'
  | _ => none

/-- The character of an escape behind its backslash, and the text behind the escape. -/
def escape? : List Char → Option (Char × List Char)
  | 'u' :: cs =>
    if 4 ≤ cs.length then (charOfHex? (cs.take 4)).map (·, cs.drop 4) else none
  | 'U' :: cs =>
    if 8 ≤ cs.length then (charOfHex? (cs.take 8)).map (·, cs.drop 8) else none
  | c :: cs => (letterEscape? c).map (·, cs)
  | [] => none

/-- A string on one line behind its opening quote, and the text behind its closing quote. -/
def string? : Nat → List Char → Option (List Char × List Char)
  | 0, _ | _, [] => none
  | n + 1, c :: cs =>
    if isLineEnd c then none
    else if c = '"' then some ([], cs)
    else if c = '\\' then do
      let (e, cs) ← escape? cs
      let (s, rest) ← string? n cs
      return (e :: s, rest)
    else do
      let (s, rest) ← string? n cs
      return (c :: s, rest)

/-- A string on one line without escapes, and the text behind it. -/
def rawString? (cs : List Char) : Option (List Char × List Char) :=
  match cs.span fun c => c ≠ '\'' && !isLineEnd c with
  | (s, '\'' :: rest) => some (s, rest)
  | _ => none

/-- The text without a line end at its start. -/
def dropLineEnd : List Char → List Char
  | '\n' :: cs | '\r' :: '\n' :: cs => cs
  | cs => cs

/-- The text of a string of several lines up to its closing quotes, and the text behind them. Up to
two quotes in front of the closing ones belong to the string. `before` is the text that was read,
the last character first. -/
def longText? (quote : Char) : Nat → List Char → List Char → Option (List Char × List Char)
  | 0, _, _ | _, _, [] => none
  | n + 1, before, c :: cs =>
    if c = '\\' && quote = '"' then
      match cs with
      | d :: cs => longText? quote n (d :: c :: before) cs
      | [] => none
    else if c = quote && cs.take 2 = [quote, quote] then
      if (cs.drop 2).head? = some quote then
        let read := quote :: quote :: quote :: before
        if read.take 5 = List.replicate 5 quote && !(quote = '"' && read[5]? = some '\\') then none
        else longText? quote n (c :: before) cs
      else some (before.reverse, cs.drop 2)
    else longText? quote n (c :: before) cs

/-- Whether a backslash ends its line, up to blanks. -/
def endsLine (cs : List Char) : Bool := ((cs.dropWhile isBlank).head?.map isLineEnd).getD false

/-- A string of several lines with its escapes replaced; a backslash at the end of a line joins the
line with the next text. -/
def unescape? : Nat → List Char → Option (List Char)
  | _, [] => some []
  | 0, _ => none
  | n + 1, c :: cs =>
    if c ≠ '\\' then (unescape? n cs).map (c :: ·)
    else if endsLine cs then unescape? n (cs.dropWhile fun c => isBlank c || isLineEnd c)
    else do
      let (e, cs) ← escape? cs
      let s ← unescape? n cs
      return e :: s

/-- A string value, and the text behind it. -/
def stringValue? (cs : List Char) : Option (List Char × List Char) :=
  match cs with
  | '"' :: '"' :: '"' :: cs => do
    let (s, rest) ← longText? '"' cs.length [] cs
    let s := dropLineEnd s
    return (← unescape? s.length s, rest)
  | '\'' :: '\'' :: '\'' :: cs => do
    let (s, rest) ← longText? '\'' cs.length [] cs
    return (dropLineEnd s, rest)
  | '"' :: cs => string? cs.length cs
  | '\'' :: cs => rawString? cs
  | _ => none

/-! ### Keys -/

/-- The characters of a key without quotes. -/
def isKeyChar (c : Char) : Bool := Piece.isWordPart c || c = '-'

/-- One part of a key, and the text behind it. -/
def keyPart? (cs : List Char) : Option (String × List Char) :=
  match cs with
  | '"' :: cs => (string? cs.length cs).map fun (s, rest) => (String.ofList s, rest)
  | '\'' :: cs => (rawString? cs).map fun (s, rest) => (String.ofList s, rest)
  | cs =>
    match cs.span isKeyChar with
    | ([], _) => none
    | (name, rest) => some (String.ofList name, rest)

/-- A dotted key, and the text behind it and the blanks that follow. -/
def key? : Nat → List Char → Option (Key × List Char)
  | 0, _ => none
  | n + 1, cs => do
    let (part, rest) ← keyPart? (skipBlanks cs)
    match skipBlanks rest with
    | '.' :: rest => do
      let (more, rest) ← key? n rest
      return (part :: more, rest)
    | rest => return ([part], rest)

/-! ### Numbers -/

/-- The characters of integers in a base that the start tells. -/
def basedChar? (c : Char) : Option (Char → Bool) :=
  match c with
  | 'b' => some fun c => c = '0' || c = '1'
  | 'o' => some fun c => '0' ≤ c && c ≤ '7'
  | 'x' => some fun c => (Piece.hexValue? c).isSome
  | _ => none

/-- Whether every underscore stands behind a digit, and the last character is a digit. -/
def underscoresOk (afterDigit : Bool) : List Char → Bool
  | [] => afterDigit
  | c :: cs => (c ≠ '_' || afterDigit) && underscoresOk (Piece.hexValue? c).isSome cs

/-- Whether a number has a zero in front of further digits. -/
def hasLeadingZero : List Char → Bool
  | '0' :: c :: _ => !(c = 'b' || c = 'o' || c = 'x')
  | sign :: '0' :: _ :: _ => sign = '-' || sign = '+'
  | _ => false

/-- The value of an integer. -/
def integer? (cs : List Char) : Option Literal :=
  if underscoresOk false cs && !hasLeadingZero cs then
    match Integer.read (String.ofList cs) with
    | .ok n => some (.integer n)
    | .error _ => none
  else none

/-- The parts of a number with a fraction or an exponent between its point and its letter. -/
def floatParts (cs : List Char) : List (List Char) :=
  (cs.splitOnP fun c => c = '.' || c = 'e' || c = 'E').filter (!·.isEmpty)

/-- Whether every point is followed by a digit. -/
def pointsOk : List Char → Bool
  | [] => true
  | '.' :: cs => cs.head?.any Piece.isDigit && pointsOk cs
  | _ :: cs => pointsOk cs

/-- Whether a text is a number with a fraction or an exponent. -/
def isFloat (cs : List Char) : Bool :=
  let parts := floatParts cs
  parts.all (underscoresOk false) && !((parts.head?.map hasLeadingZero).getD false) &&
    pointsOk cs && (Binary64.ofText? (String.ofList (cs.filter (· ≠ '_')))).isSome

/-- A number with a fraction or an exponent. -/
def float? (cs : List Char) : Option Literal := if isFloat cs then some .other else none

/-- The characters that go on in a date or time. -/
def isMomentChar (c : Char) : Bool :=
  Piece.isDigit c || c ∈ ['-', ':', 'T', 't', ' ', '.', 'Z', 'z', '+']

/-- The characters that go on in a number with a fraction or an exponent. -/
def isFloatChar (c : Char) : Bool := Piece.isDigit c || c ∈ ['_', '.', '-', '+', 'e', 'E']

/-- A date or time behind its first digits, and the text behind it. -/
def moment? (first cs : List Char) : Option (Literal × List Char) :=
  let (more, rest) := cs.span isMomentChar
  let text := ((first ++ more).reverse.dropWhile (· = ' ')).reverse
  if Moment.isMoment text then some (.other, rest) else none

/-- A number in base ten behind its first characters, and the text behind it. -/
def decimal? (first cs : List Char) : Option (Literal × List Char) :=
  let (digits, rest) := cs.span fun c => Piece.isDigit c || c = '_'
  match rest with
  | c :: _ =>
    if c = '.' || c = 'e' || c = 'E' then
      let (more, rest) := rest.span isFloatChar
      (float? (first ++ digits ++ more)).map (·, rest)
    else (integer? (first ++ digits)).map (·, rest)
  | [] => (integer? (first ++ digits)).map (·, [])

/-- A number or date that starts with a digit, and the text behind it. -/
def digits? (cs : List Char) : Option (Literal × List Char) :=
  let based :=
    match cs with
    | '0' :: c :: rest => (basedChar? c).map fun isPart => (c, isPart, rest)
    | _ => none
  match based with
  | some (c, isPart, rest) =>
    if rest.head?.any isPart then
      let (digits, rest) := rest.span fun c => isPart c || c = '_'
      (integer? ('0' :: c :: digits)).map (·, rest)
    else none
  | none =>
    let (digits, rest) := cs.span Piece.isDigit
    match rest with
    | c :: _ =>
      if (c = '-' || c = ':') && (digits.length ≠ 1 || digits ≠ ['0']) then moment? digits rest
      else decimal? digits rest
    | [] => decimal? digits []

/-- A number behind its sign, and the text behind it. -/
def signed? (sign : Char) (cs : List Char) : Option (Literal × List Char) :=
  match cs with
  | 'i' :: 'n' :: 'f' :: rest | 'n' :: 'a' :: 'n' :: rest => some (.other, rest)
  | '0' :: c :: _ => if (basedChar? c).isSome then none else decimal? [sign] cs
  | c :: _ => if Piece.isDigit c then decimal? [sign] cs else none
  | [] => none

/-! ### Values -/

mutual

/-- A value, and the text behind it. -/
def value? : Nat → List Char → Option (Literal × List Char)
  | 0, _ => none
  | n + 1, cs =>
    match skipBlanks cs with
    | '[' :: rest => (items? n rest).map fun (items, rest) => (.array items, rest)
    | '\x7b' :: rest =>
      match skipBlanks rest with
      | '\x7d' :: rest => some (.table [], rest)
      | rest => (entries? n rest).map fun (entries, rest) => (.table entries, rest)
    | 'i' :: 'n' :: 'f' :: rest | 'n' :: 'a' :: 'n' :: rest => some (.other, rest)
    | 't' :: 'r' :: 'u' :: 'e' :: rest => some (.bool true, rest)
    | 'f' :: 'a' :: 'l' :: 's' :: 'e' :: rest => some (.bool false, rest)
    | [] => none
    | c :: rest =>
      if c = '"' || c = '\'' then
        (stringValue? (c :: rest)).map fun (s, rest) => (.text (String.ofList s), rest)
      else if c = '-' || c = '+' then signed? c rest
      else if Piece.isDigit c then digits? (c :: rest)
      else none

/-- The items of an array behind its bracket, and the text behind the array. -/
def items? : Nat → List Char → Option (List Literal × List Char)
  | 0, _ => none
  | n + 1, cs =>
    match skipLines cs.length cs with
    | ']' :: rest => some ([], rest)
    | cs => do
      let (item, rest) ← value? n cs
      match skipLines rest.length rest with
      | ']' :: rest => return ([item], rest)
      | ',' :: rest => do
        let (items, rest) ← items? n rest
        return (item :: items, rest)
      | _ => none

/-- The entries of a table in braces, at least one, and the text behind the table. -/
def entries? : Nat → List Char → Option (List Entry × List Char)
  | 0, _ => none
  | n + 1, cs => do
    let (key, rest) ← key? (cs.length + 1) cs
    match rest with
    | '=' :: rest => do
      let (value, rest) ← value? n rest
      match skipBlanks rest with
      | '\x7d' :: rest => return ([.mk key value], rest)
      | ',' :: rest => do
        let (entries, rest) ← entries? n rest
        return (.mk key value :: entries, rest)
      | _ => none
    | _ => none

end

/-! ### Lines -/

/-- A line, and the text behind it. -/
def line? (cs : List Char) : Option (Line × List Char) := do
  match cs with
  | '[' :: '[' :: rest => do
    let (key, rest) ← key? (rest.length + 1) rest
    match rest with
    | ']' :: ']' :: rest => return (.element key, ← endLine? rest)
    | _ => none
  | '[' :: rest => do
    let (key, rest) ← key? (rest.length + 1) rest
    match rest with
    | ']' :: rest => return (.table key, ← endLine? rest)
    | _ => none
  | cs => do
    let (key, rest) ← key? (cs.length + 1) cs
    match rest with
    | '=' :: rest => do
      let (value, rest) ← value? (rest.length + 1) rest
      return (.entry key value, ← endLine? rest)
    | _ => none

/-- The lines of a text that holds only allowed characters. -/
def linesOf? : Nat → List Char → Option (List Line)
  | 0, _ => none
  | n + 1, cs =>
    match skipLines cs.length cs with
    | [] => some []
    | cs => do
      let (line, rest) ← line? cs
      let lines ← linesOf? n rest
      return line :: lines

/-- The lines of a text, or none if the text is no document. A byte order mark in front is not part
of the document. -/
def lines? (text : List Char) : Option (List Line) :=
  let cs :=
    match text with
    | '\ufeff' :: cs => cs
    | cs => cs
  if isPlain cs then linesOf? (cs.length + 1) cs else none

end Document

end Pine
