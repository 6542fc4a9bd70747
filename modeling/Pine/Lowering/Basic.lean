import Pine.Builtin.Registry
import Pine.Indicator.Basic
import Pine.Lowering.Declarations
import Pine.Lowering.Scope
import Pine.Script.Basic

/-!
# Lowering steps

Lowering turns a program into a script. It reads a fixed context, keeps track of the open scopes
and of the numbers and keys that it has handed out, and collects warnings. It can only fail on a
tree that no source text has.
-/

namespace Pine

/-! ### Failures -/

/-- Why a tree has no script. -/
inductive Gap where
  | missingExpression
  | statement (kind : String)
  | unaryOperator (spelling : String)
  | loopParts
  | loopTest (kind : String)
  | assignTarget (kind : String)
  | cell (name : String)
  deriving DecidableEq, Repr

/-- How messages name a kind of node; an absent node has no kind. -/
def nodeName (kind : String) : String := if kind = "" then "<nil>" else "*compiler." ++ kind

/-- What is wrong with a tree. -/
def Gap.message : Gap → String
  | missingExpression => "missing expression"
  | statement kind => "no generation rule for statement " ++ nodeName kind
  | unaryOperator spelling => "unknown unary operator " ++ Text.quote spelling
  | loopParts => "counting loop without init or update"
  | loopTest kind => "counting loop test is " ++ nodeName kind
  | assignTarget kind => "no generation rule for assignment to " ++ nodeName kind
  | cell name => "no persistent cell for " ++ name

/-- A tree that has no script, with the position of the node at fault. -/
structure InternalError where
  /-- What is wrong. -/
  gap : Gap
  /-- The position, zero if there is none. -/
  pos : Pos
  deriving DecidableEq, Repr

/-- A failure in words. -/
def InternalError.text (e : InternalError) : String :=
  if 0 < e.pos.line then
    s!"internal compiler error at line {e.pos.line}, column {e.pos.column}: {e.gap.message}"
  else s!"internal compiler error: {e.gap.message}"

/-! ### Context and state -/

namespace Lowering

/-- What lowering reads. -/
structure Context where
  /-- The builtins. -/
  registry : Builtins
  /-- The description of the program. -/
  indicator : Indicator
  /-- The functions and types of the program. -/
  declarations : Declarations
  /-- The cells of persistent variables, by the key of the declaration. -/
  cells : List (Nat × String) := []
  /-- The greatest number of rounds of a loop. -/
  loopLimit : Nat

/-- What lowering changes. -/
structure State where
  /-- The open scopes. -/
  scopes : Scopes := {}
  /-- The warnings. -/
  diagnostics : Diagnostics := {}
  /-- The number of loops so far. -/
  loops : Nat := 0
  /-- The number of switches so far that keep their subject in a variable. -/
  switches : Nat := 0
  /-- The names for which the host keeps a series, once for each series. -/
  seriesNames : List String := []

end Lowering

/-- A step of lowering. -/
abbrev Lower := EStateM InternalError Lowering.State

namespace Lower

open Lowering

/-- Stops at a tree that has no script. -/
def fail {α : Type} (pos : Pos) (gap : Gap) : Lower α := throw ⟨gap, pos⟩

/-- One more warning. -/
def warn (severity : Severity) (feature : String) (line : Int) (message : String) : Lower Unit :=
  modify fun s => { s with diagnostics := s.diagnostics.warn ⟨severity, feature, message, line⟩ }

/-- The innermost symbol of a name. -/
def find? (name : String) : Lower (Option Symbol) := return (← get).scopes.find? name

/-- Binds a name in the innermost scope; tells whether it was bound there before. -/
def define (name : String) (kind : SymbolKind) : Lower Bool := do
  let scopes := (← get).scopes
  modify fun s => { s with scopes := s.scopes.define name kind }
  return (scopes.current.find? name).isSome

/-- Binds names in the innermost scope; tells for each whether it was bound there before. -/
def defineAll (kind : SymbolKind) : List String → Lower (List Bool)
  | [] => return []
  | name :: names => do
    let existed ← define name kind
    return existed :: (← defineAll kind names)

/-- Changes the innermost symbol of a name. -/
def updateSymbol (name : String) (f : Symbol → Symbol) : Lower Unit :=
  modify fun s => { s with scopes := s.scopes.update name f }

/-- A step in a scope of its own. -/
def inScope {α : Type} (step : Lower α) : Lower α := do
  modify fun s => { s with scopes := s.scopes.enter }
  let a ← step
  modify fun s => { s with scopes := s.scopes.leave }
  return a

/-- The number of a new loop. -/
def freshLoop : Lower Nat := do
  let n := (← get).loops + 1
  modify fun s => { s with loops := n }
  return n

/-- The number of a new switch that keeps its subject in a variable. -/
def freshSwitch : Lower Nat := do
  let n := (← get).switches + 1
  modify fun s => { s with switches := n }
  return n

/-- A key for a series of a name; the second and later series of a name are numbered. -/
def seriesKey (name : String) : Lower String := do
  let n := (← get).seriesNames.count name + 1
  modify fun s => { s with seriesNames := name :: s.seriesNames }
  return if n = 1 then name else name ++ "#" ++ toString n

/-! ### After declarations and assignments -/

/-- The series of a name and the function that reads it. -/
def seriesBinding (name : String) : Lower (List Script.Stmt) := do
  let key ← seriesKey name
  updateSymbol name fun s => { s with hasSeries := true }
  let safe := Script.safeName name
  return [.series safe key, .record safe, .accessor safe]

/-- What follows the declaration of a name: its series, if its history is read anywhere. -/
def afterDeclare (env : Context) (name : String) : Lower (List Script.Stmt) := do
  let hasSeries := ((← find? name).map (·.hasSeries)).getD false
  if name ∈ env.indicator.history && !hasSeries then seriesBinding name else return []

/-- What follows the declaration of names. -/
def afterDeclareAll (env : Context) : List String → Lower (List Script.Stmt)
  | [] => return []
  | name :: names => do
    let first ← afterDeclare env name
    return first ++ (← afterDeclareAll env names)

/-- The stores that keep the cell and the series of a symbol in step with its variable. -/
def stores (s : Symbol) : List Script.Stmt :=
  (match s.kind, s.cell with
    | .persistent, some cell => [.store cell s.scriptName]
    | _, _ => []) ++
  if s.hasSeries then [.record s.scriptName] else []

/-- What follows an assignment to a name. -/
def afterAssign (name : String) : Lower (List Script.Stmt) :=
  return ((← find? name).map stores).getD []

end Lower

end Pine
