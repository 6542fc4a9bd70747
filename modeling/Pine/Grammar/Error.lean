import Pine.Token.Basic

/-!
# Parse errors

A parse error names what was wrong, the token at which it was seen and its position.
-/

namespace Pine

/-- What can be wrong with a program. -/
inductive ParseError.Cause where
  /-- Another kind of token was due. -/
  | expectedKind (kind : Token.Kind) (found : String)
  /-- A certain operator or keyword was due. -/
  | expectedWord (word found : String)
  /-- The token starts no expression. -/
  | unexpected (found : String)
  /-- The statement is complete, and something follows it on the same line. -/
  | afterStatement (found : String)
  /-- The keyword starts no statement. -/
  | keyword (word : String)
  /-- The token cannot be part of a library path. -/
  | inPath (found : String)
  /-- Expressions and blocks are nested too deeply. -/
  | tooDeep (limit : Nat)
  /-- Only functions, types and variables can be exported. -/
  | notExportable
  /-- The expression cannot be assigned to. -/
  | notAssignable (target : String)
  /-- A name with a type in front was due. -/
  | expectedTyped
  /-- A type must be followed by a name. -/
  | expectedName (type : String)
  /-- Type arguments must be followed by arguments. -/
  | expectedParen
  /-- A library path was due. -/
  | expectedPath
  /-- A member name was due. -/
  | expectedMember (found : String)
  /-- The source has more tokens than allowed. -/
  | tooManyTokens (count limit : Nat)
  deriving DecidableEq, Repr

/-- A parse error. -/
structure ParseError where
  /-- What is wrong. -/
  cause : ParseError.Cause
  /-- The line of that token. -/
  line : Int
  /-- The column of that token. -/
  column : Int
  /-- The text of the token at which it was seen. -/
  token : String
  deriving DecidableEq, Repr

namespace ParseError

open Text (quote)

/-- A cause in words. -/
def Cause.message : Cause → String
  | expectedKind kind found => s!"expected {kind.name}, got {quote found}"
  | expectedWord word found => s!"expected {quote word}, got {quote found}"
  | unexpected found => s!"unexpected {quote found}"
  | afterStatement found => s!"unexpected {quote found} after statement"
  | keyword word => s!"unexpected keyword {quote word}"
  | inPath found => s!"unexpected {quote found} in import path"
  | tooDeep limit => s!"maximum recursion depth of {limit} exceeded"
  | notExportable => "export must precede a function, type, or variable declaration"
  | notAssignable target => s!"cannot assign to {target}"
  | expectedTyped => "expected a typed declaration"
  | expectedName type => s!"expected a name after type {type}"
  | expectedParen => "expected '(' after type arguments"
  | expectedPath => "expected import path"
  | expectedMember found => s!"expected member name after '.', got {quote found}"
  | tooManyTokens count limit => s!"token limit exceeded: {count} tokens (limit {limit})"

/-- The error in words, without its position. -/
def message (e : ParseError) : String := e.cause.message

/-- The error in words, with its position. -/
def text (e : ParseError) : String := s!"line {e.line}, column {e.column}: {e.message}"

/-- The error of a token. -/
def atToken (t : Token) (cause : Cause) : ParseError := ⟨cause, t.line, t.column, t.text⟩

end ParseError

end Pine
