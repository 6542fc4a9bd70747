import Pine.Grammar.Cursor

/-!
# Rules

A rule reads tokens and counts how deeply it is nested. The count is part of the state: a rule that
goes one level deeper counts up, and down again when it ends, whichever way it ends. An attempt that
fails puts the state back.

Repetitions are bounded. A rule that meets a bound has no answer: this is no error of the source,
and no attempt goes on after it.
-/

namespace Pine

/-- The state of the parser. -/
structure Rule.State where
  /-- The place in the tokens. -/
  cursor : Cursor
  /-- The number of expressions, blocks and operators around the place. -/
  depth : Nat
  /-- The greatest depth allowed; zero allows any. -/
  limit : Nat

/-- Why a rule ends without a value. -/
inductive Rule.Stop where
  /-- The tokens do not fit. -/
  | error (e : ParseError)
  /-- The bound on a repetition was met. -/
  | bound

/-- A computation on the state of the parser. -/
abbrev Rule := EStateM Rule.Stop Rule.State

namespace Rule

variable {α : Type}

/-- Reading tokens moves the cursor only. -/
def ofParser (p : Parser α) : Rule α := fun s =>
  match p s.cursor with
  | .ok a c => .ok a { s with cursor := c }
  | .error e c => .error (.error e) { s with cursor := c }

instance : MonadLift Parser Rule := ⟨ofParser⟩

/-- Back one level. -/
def leave : Rule Unit := modify fun s => { s with depth := s.depth - 1 }

/-- One level deeper, unless that is too deep. -/
def enter : Rule Unit := do
  modify fun s => { s with depth := s.depth + 1 }
  let s ← get
  if 0 < s.limit ∧ s.limit < s.depth then
    leave
    Parser.fail (← Parser.peek) (.tooDeep s.limit)

/-- A rule one level deeper. -/
def nested (x : Rule α) : Rule α := do
  enter
  try x finally leave

/-- The value of a rule, or nothing and the state from before if the tokens do not fit. -/
def attempt (x : Rule α) : Rule (Option α) := do
  let mark ← get
  try
    let a ← x
    return some a
  catch
    | .error _ =>
      set mark
      return none
    | .bound => throw .bound

end Rule

end Pine
