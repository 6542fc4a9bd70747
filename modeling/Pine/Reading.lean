import Pine.Grammar.Program
import Pine.Token.Layout

/-!
# Reading sources

A source is readable if it has tokens and its tokens form a program, both within limits.
-/

namespace Pine

/-- Why a source is not readable. -/
inductive ReadError where
  /-- The source has no tokens. -/
  | lex (error : LexError)
  /-- The tokens form no program. -/
  | parse (first : ParseError) (more : List ParseError)

namespace ReadError

/-- The first error in words. -/
def reason : ReadError → String
  | lex e => e.message
  | parse first _ => first.text

/-- The line of the first error. -/
def line : ReadError → Int
  | lex e => e.line
  | parse first _ => first.line

/-- The column of the first error. -/
def column : ReadError → Int
  | lex e => e.column
  | parse first _ => first.column

/-- The stage that failed with its first error, and the number of further errors. -/
def message : ReadError → String
  | lex e => s!"lex: {e.message}"
  | parse first [] => s!"parse: {first.text}"
  | parse first more => s!"parse: {first.text} (and {more.length} more errors)"

end ReadError

/-- The program of a source. -/
def Source.read (limits : Limits) (source : List Char) : Except ReadError Program :=
  let lexed := Token.lex limits.maxTokens source
  match lexed.error with
  | some e => .error (.lex e)
  | none =>
    let parsed := Program.parse limits lexed.tokens
    match parsed.errors with
    | [] => .ok parsed.program
    | first :: more => .error (.parse first more)

end Pine
