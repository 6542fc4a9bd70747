import Pine.Grammar.Statement

/-!
# The grammar of programs

A program is read statement by statement. A statement with an error is reported and left out, and
reading goes on at the next line or at a token that can start a statement or closes a bracket. A
reading with fifty errors is given up.

The rules of expressions and statements hold each other. The circle is closed by a bound on the
number of passages from one rule to a part of it. Each passage but the one from a statement to its
expression reads a token, so the bound is taken past the number of tokens; what meets a bound has no
answer.
-/

namespace Pine

namespace Grammar

/-! ### Recovery -/

/-- The keywords that start a statement. -/
def statementKeywords : List String :=
  ["if", "for", "while", "var", "varip", "return", "break", "continue", "switch", "type", "import",
    "export", "method"]

/-- Whether reading can go on at a token after an error. -/
def resumes (t : Token) : Bool :=
  match t.kind with
  | .rparen | .rbracket | .rbrace => true
  | .keyword => t.lexeme ∈ statementKeywords
  | _ => false

/-- Skips to the end of input, past a line end, or to a token at which reading can go on. -/
def skipTo : List Token → List Token → Cursor
  | past, [] => ⟨past, []⟩
  | past, t :: rest =>
    if t.kind = .eof || past.head?.any (·.kind = .newline) || resumes t then ⟨past, t :: rest⟩
    else skipTo (t :: past) rest

/-- The place where reading goes on after an error: at least one token is skipped. -/
def synchronize (c : Cursor) : Cursor :=
  let c := c.advance
  skipTo c.past c.rest

/-- The number of errors after which reading is given up. -/
def maxErrors : Nat := 50

end Grammar

namespace Rule

/-! ### Closing the circle -/

mutual

/-- Expressions, with a bound on the passages to parts. -/
def exprAt : Nat → Rule Expr
  | 0 => throw .bound
  | n + 1 => fun s => Parts.expression ⟨n, exprAt n, stmtAt n⟩ s

/-- Statements, with a bound on the passages to parts. -/
def stmtAt : Nat → Rule Stmt
  | 0 => throw .bound
  | n + 1 => fun s => Parts.statement ⟨n, exprAt n, stmtAt n⟩ s

end

/-- Statements and errors up to the end of input, if a number of rounds suffices. `errors` counts
the errors before. -/
def program (stmt : Rule Stmt) : Nat → Nat → State → Option (List Stmt × List ParseError)
  | 0, _, s => if s.cursor.peek.kind = .eof then some ([], []) else none
  | n + 1, errors, s =>
    match s.cursor.peek.kind with
    | .eof => some ([], [])
    | .newline | .indent | .dedent => program stmt n errors { s with cursor := s.cursor.advance }
    | _ =>
      match stmt s with
      | .ok a s => do
        let (stmts, es) ← program stmt n errors s
        return (a :: stmts, es)
      | .error (.error e) s =>
        if Grammar.maxErrors ≤ errors + 1 then some ([], [e])
        else do
          let s := { s with cursor := Grammar.synchronize s.cursor }
          let (stmts, es) ← program stmt n (errors + 1) s
          return (stmts, e :: es)
      | .error .bound _ => none

end Rule

/-! ### Programs -/

/-- Ceilings on the work of reading a program; zero means none. -/
structure Limits where
  /-- The greatest number of tokens. -/
  maxTokens : Nat
  /-- The greatest depth of nesting. -/
  maxDepth : Nat
  deriving DecidableEq, Repr

/-- The ceilings that hold if none are given. -/
def Limits.standard : Limits := ⟨100000, 200⟩

/-- What reading a program gives: the statements without an error, and the errors. -/
structure Parsed where
  /-- The statements that were read. -/
  program : Program
  /-- The errors, in the order in which they were seen. -/
  errors : List ParseError

/-- The statements and errors of a list of tokens, in at most one round for each token. -/
def Program.parse (limits : Limits) (tokens : List Token) : Parsed :=
  let count := tokens.length
  if 0 < limits.maxTokens ∧ limits.maxTokens < count then
    ⟨[], [⟨.tooManyTokens count limits.maxTokens, 1, 1, ""⟩]⟩
  else
    let s : Rule.State := ⟨Cursor.start tokens, 0, limits.maxDepth⟩
    let (stmts, errors) := (Rule.program (Rule.stmtAt (count + 2)) count 0 s).getD ([], [])
    ⟨stmts, errors⟩

end Pine
