import Pine.Grammar.Error
import Pine.Tree.Basic

/-!
# Reading tokens

A cursor stands between the tokens that were read and those that are left. A parser moves the
cursor and gives a value or an error; after an error the cursor stands where the error was seen.
Past the last token there is an end of input at the position of the last token.
-/

namespace Pine

/-! ### Cursors -/

/-- A position in a list of tokens. -/
structure Cursor where
  /-- The tokens that were read, the last one first. -/
  past : List Token
  /-- The tokens that are left. -/
  rest : List Token

namespace Cursor

/-- The cursor in front of all tokens. -/
def start (tokens : List Token) : Cursor := ⟨[], tokens⟩

/-- The end of input after a last token. -/
def endAfter : Option Token → Token
  | some t => ⟨.eof, "", t.line, t.column, 0, 0⟩
  | none => ⟨.eof, "", 1, 1, 0, 0⟩

/-- The next token. -/
def peek (c : Cursor) : Token :=
  match c.rest with
  | t :: _ => t
  | [] => endAfter c.past.head?

/-- The token after the next one. -/
def peekNext (c : Cursor) : Token :=
  match c.rest with
  | _ :: t :: _ => t
  | [t] => endAfter (some t)
  | [] => endAfter c.past.head?

/-- The cursor past the next token; at the end it stays. -/
def advance (c : Cursor) : Cursor :=
  match c.rest with
  | t :: rest => ⟨t :: c.past, rest⟩
  | [] => c

/-- The kind of the last token that was read; an end of input if there is none. -/
def lastKind (c : Cursor) : Token.Kind :=
  match c.past with
  | t :: _ => t.kind
  | [] => .eof

theorem length_rest_advance_le (c : Cursor) : c.advance.rest.length ≤ c.rest.length := by
  unfold advance
  split
  · next h => simp [h]
  · exact Nat.le_refl _

end Cursor

/-! ### Parsers -/

/-- A computation that moves a cursor. -/
abbrev Parser := EStateM ParseError Cursor

namespace Parser

/-- The next token. -/
def peek : Parser Token := fun c => .ok c.peek c

/-- The token after the next one. -/
def peekNext : Parser Token := fun c => .ok c.peekNext c

/-- The next token, which is read. -/
def advance : Parser Token := fun c => .ok c.peek c.advance

/-- An error at a token. -/
def fail {α : Type} (t : Token) (cause : ParseError.Cause) : Parser α := throw (.atToken t cause)

/-- An error at the next token, which starts nothing that fits here. -/
def unexpected {α : Type} : Parser α := do
  let t ← peek
  fail t (.unexpected t.text)

/-- The next token, which must be of a kind. -/
def expect (kind : Token.Kind) : Parser Token := do
  let t ← peek
  if t.kind = kind then advance else fail t (.expectedKind kind t.text)

/-- The next token, which must be an operator. -/
def expectOp (spelling : String) : Parser Token := do
  let t ← peek
  if t.isOp spelling then advance else fail t (.expectedWord spelling t.text)

/-- The next token, which must be a keyword. -/
def expectKeyword (word : String) : Parser Token := do
  let t ← peek
  if t.isKeyword word then advance else fail t (.expectedWord word t.text)

/-- Whether the line ends here. -/
def atLineEnd : Parser Bool := do
  let t ← peek
  return t.kind = .newline || t.kind = .eof || t.kind = .dedent

/-- The end of a statement: a line end is read, and nothing is due after a block, which has read
its own. -/
def endStatement : Parser Unit := fun c =>
  if c.lastKind = .dedent then .ok () c
  else
    match c.peek.kind with
    | .newline => .ok () c.advance
    | .eof | .dedent => .ok () c
    | _ => .error (.atToken c.peek (.afterStatement c.peek.text)) c

end Parser

/-- The position of a token. -/
def Token.pos (t : Token) : Pos := ⟨t.line, t.column⟩

end Pine
