import Pine.Token.Piece

/-!
# Layout

The layout of a source turns its pieces into tokens. Outside brackets a line break ends a logical
line, and the indentation of the next line that holds code opens or closes blocks. Blank lines and
lines that start with a comment do not count. Inside `(` and `[` line breaks mean nothing.

The open blocks are kept as the list of their widths, innermost first; below them lies the base
width zero, which is never closed.
-/

namespace Pine

open Token (Kind)

/-! ### Errors -/

/-- Why tokens could not be made. -/
inductive LexError.Cause where
  /-- Text that cannot be cut into pieces. -/
  | fault (fault : Piece.Fault)
  /-- A line is indented less than the open block but not as much as any outer one. -/
  | unindent
  /-- More tokens than the ceiling allows. -/
  | tooMany (limit : Nat)
  deriving DecidableEq, Repr

/-- A lexical error with its place. -/
structure LexError where
  /-- What is wrong. -/
  cause : LexError.Cause
  /-- The line, from one. -/
  line : Nat
  /-- The column, from one. -/
  column : Nat
  deriving DecidableEq, Repr

namespace LexError

/-- What is wrong, without the place. -/
def detail (e : LexError) : String :=
  match e.cause with
  | .fault f => f.message
  | .unindent => "unindent does not match any outer indentation level"
  | .tooMany limit => s!"source exceeds the limit of {limit} tokens"

/-- The error with its place. -/
def message (e : LexError) : String := s!"line {e.line}, column {e.column}: {e.detail}"

/-- Whether the ceiling on the number of tokens was met. -/
def isTooMany (e : LexError) : Bool :=
  match e.cause with
  | .tooMany _ => true
  | _ => false

end LexError

/-! ### State -/

/-- The state of a layout run. -/
structure Layout where
  /-- The place after the pieces read so far. -/
  place : Place := .first
  /-- The widths of the open blocks, innermost first. -/
  widths : List Nat := []
  /-- The number of open `(` and `[`. -/
  nesting : Nat := 0
  /-- The tokens made so far. -/
  tokens : Array Token := #[]

namespace Layout

/-- The width of the innermost open block. -/
def top (s : Layout) : Nat := s.widths.headD 0

/-- The state after a piece that makes no token. -/
def skip (s : Layout) (text : List Char) : Layout := { s with place := s.place.after text }

/-- One more token, from the current place to `stop`. -/
def emit (s : Layout) (kind : Kind) (lexeme : String) (stop : Place) : Layout :=
  { s with
    place := stop
    tokens := s.tokens.push
      ⟨kind, lexeme, s.place.line, s.place.column, s.place.offset, stop.offset⟩ }

/-- One more token without text at the current place. -/
def mark (s : Layout) (kind : Kind) : Layout := s.emit kind "" s.place

/-- The logical line ends with the character before offset `stop`. The first token of a source is
never a line end, and one line end never follows another. -/
def endLine (s : Layout) (stop : Nat) : Layout :=
  match s.tokens.back? with
  | none => s
  | some last =>
    if last.kind = .newline then s
    else { s with
      tokens := s.tokens.push
        ⟨.newline, "\n", s.place.line, s.place.column, stop - 1, stop⟩ }

/-! ### Indentation -/

/-- The width of an indentation: a tab counts for four spaces. -/
def width (blanks : List Char) : Nat :=
  blanks.foldl (fun n c => if c = '\t' then n + 4 else n + 1) 0

/-- Close the blocks that are wider than `width`, one token each. -/
def closeTo (width : Nat) (place : Place) : List Nat → Array Token → List Nat × Array Token
  | w :: ws, tokens =>
    if width < w then
      closeTo width place ws (tokens.push ⟨.dedent, "", place.line, place.column, place.offset,
        place.offset⟩)
    else (w :: ws, tokens)
  | [], tokens => ([], tokens)

/-- Code starts at the current place after an indentation of the given width. -/
def indentTo (s : Layout) (width : Nat) : Layout × Option LexError :=
  if s.top < width then
    ({ s.mark .indent with widths := width :: s.widths }, none)
  else
    let (widths, tokens) := closeTo width s.place s.widths s.tokens
    let s := { s with widths, tokens }
    (s, if width = s.top then none else some ⟨.unindent, s.place.line, s.place.column⟩)

/-- Whether a piece after an indentation is code, so that the indentation counts. -/
def isCode (p : Piece) : Bool :=
  match p.form with
  | .token _ _ | .fault .openString | .fault (.stray _) => true
  | _ => false

/-- The indentation of a line that goes on with `next`. -/
def openLine (s : Layout) (width : Nat) (next : Option Piece) : Layout × Option LexError :=
  if next.any isCode then s.indentTo width else (s, none)

/-! ### Steps -/

/-- How a token changes the bracket nesting. -/
def nest (kind : Kind) (nesting : Nat) : Nat :=
  match kind with
  | .lparen | .lbracket => nesting + 1
  | .rparen | .rbracket => nesting - 1
  | _ => nesting

/-- One piece, with a look at the piece after it. -/
def step (s : Layout) (p : Piece) (next : Option Piece) : Layout × Option LexError :=
  match p.form with
  | .blank | .lineComment | .blockComment => (s.skip p.text, none)
  | .lineBreak =>
    if 0 < s.nesting then (s.skip p.text, none)
    else ((s.endLine (s.place.offset + 1)).skip p.text).openLine (width (p.text.drop 1)) next
  | .token kind lexeme =>
    ({ s.emit kind lexeme (s.place.after p.text) with nesting := nest kind s.nesting }, none)
  | .fault f => (s, some ⟨.fault f, s.place.line, s.place.column⟩)

/-- The error of a state that holds more tokens than a positive ceiling allows. -/
def overflow? (limit : Nat) (s : Layout) : Option LexError :=
  if 0 < limit ∧ limit < s.tokens.size then
    some ⟨.tooMany limit, s.place.line, s.place.column⟩
  else none

/-- The end of the source: the last line ends and every open block closes. -/
def finish (s : Layout) : Layout :=
  let s := s.endLine s.place.offset
  let s := s.widths.foldl (fun s _ => s.mark .dedent) s
  { s.mark .eof with widths := [] }

/-- All pieces, up to the first error. -/
def run (limit : Nat) : List Piece → Layout → Layout × Option LexError
  | [], s => (s.finish, none)
  | p :: ps, s =>
    match s.step p ps.head? with
    | (s, some e) => (s, some e)
    | (s, none) =>
      match overflow? limit s with
      | some e => (s, some e)
      | none => run limit ps s

/-- The pieces of a whole source: the first line has an indentation too. -/
def runAll (limit : Nat) : List Piece → Layout × Option LexError
  | [] => run limit [] {}
  | p :: ps =>
    if p.form = .blank then
      match (({} : Layout).skip p.text).openLine (width p.text) ps.head? with
      | (s, some e) => (s, some e)
      | (s, none) => run limit ps s
    else run limit (p :: ps) {}

end Layout

/-! ### Tokens of a source -/

/-- What a lexing run gives: the tokens made, and the error that ended it early. -/
structure Lexed where
  /-- The tokens made. -/
  tokens : List Token
  /-- Why the run ended before the end of the source. -/
  error : Option LexError

/-- The tokens of a source. A positive `limit` is a ceiling on their number; the tokens that close
the source at its end are not counted. -/
def Token.lex (limit : Nat) (source : List Char) : Lexed :=
  let (s, error) := Layout.runAll limit (Piece.split (Source.normalize source))
  ⟨s.tokens.toList, error⟩

end Pine
