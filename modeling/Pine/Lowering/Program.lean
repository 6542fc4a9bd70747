import Pine.Lowering.Tree

/-!
# Lowering of programs

The script of a program starts with the price series that the program reads, the history of names
that it reads but never declares, and one cell for each persistent variable. The statements of the
program follow.
-/

namespace Pine

/-! ### Names that a program binds -/

namespace Program

/-- The names that the declarations at the top level bind, exported ones included. -/
def topLevelNames (program : Program) : List String :=
  program.flatMap fun s =>
    match s with
    | .decl _ _ name names _ _ _ | .exported _ (.decl _ _ name names _ _ _) =>
      Stmt.declared name names
    | _ => []

/-- The names that a node binds. -/
def boundNames : Node → List String
  | .stmt (.decl _ _ name names _ _ _) => Stmt.declared name names
  | .stmt (.func _ _ params _ _) => params.map Param.name
  | .stmt (.forCount _ counter _ _ _ _ _) => [counter]
  | .stmt (.forIn _ index item _ _) => if index = "" then [item] else [item, index]
  | .stmt (.importLib _ _ localName) => [localName]
  | _ => []

/-- The names that a program binds anywhere. -/
def declaredNames (program : Program) : List String := program.nodes.flatMap boundNames

/-! ### Persistent declarations -/

/-- A persistent declaration. -/
structure Persistent where
  /-- The key of the declaration. -/
  key : Nat
  /-- The qualifier. -/
  qualifier : String
  /-- The name. -/
  name : String
  deriving DecidableEq, Repr

/-- The persistent declarations of single names, in walking order. -/
def persistents (program : Program) : List Persistent :=
  program.nodes.filterMap fun n =>
    match n with
    | .stmt (.decl _ key name [] qualifier _ _) =>
      if qualifier = "" then none else some ⟨key, qualifier, name⟩
    | _ => none

/-- The names of cells, with the script names that had a cell before; the second and later cells
for one name are numbered. -/
def cellNames (earlier : List String) : List Persistent → List String
  | [] => []
  | d :: ds =>
    let safe := Script.safeName d.name
    let n := earlier.count safe + 1
    let cell := Script.cellName safe
    (if n = 1 then cell else cell ++ "$" ++ toString n) :: cellNames (safe :: earlier) ds

/-- The cells of the persistent declarations, by the keys of the declarations. -/
def cells (program : Program) : List (Nat × String) :=
  (program.persistents.map (·.key)).zip (cellNames [] program.persistents)

end Program

/-! ### The prologue -/

namespace Lowering

/-- The value of a price series on the current bar. -/
def sourceText (name : String) : String :=
  match name with
  | "bar_index" => "ctx.barIndex"
  | "hl2" => "(ctx.high + ctx.low) / 2"
  | "hlc3" => "(ctx.high + ctx.low + ctx.close) / 3"
  | "ohlc4" => "(ctx.open + ctx.high + ctx.low + ctx.close) / 4"
  | "hlcc4" => "(ctx.high + ctx.low + ctx.close + ctx.close) / 4"
  | name => "ctx." ++ name

/-- Price series as constants. -/
def sourceStmts (env : Context) : List String → Lower (List Script.Stmt)
  | [] => return []
  | name :: names => do
    let _ ← Lower.define name .plain
    let series ← Lower.afterDeclare env name
    return .const (Script.safeName name) (.atom (sourceText name)) :: series ++
      (← sourceStmts env names)

/-- The history of names that are not declared. -/
def historyStmts (env : Context) : List String → Lower (List Script.Stmt)
  | [] => return []
  | name :: names => do
    let _ ← Lower.define name .plain
    let series ← Lower.afterDeclare env name
    return series ++ (← historyStmts env names)

/-- The cells of persistent declarations. -/
def cellStmts : List (Program.Persistent × String) → Lower (List Script.Stmt)
  | [] => return []
  | (d, cell) :: rest => do
    let key ← Lower.seriesKey (d.qualifier ++ ":" ++ d.name)
    return .cell cell key :: .carry cell :: (← cellStmts rest)

/-- What a script starts with. -/
def prologue (env : Context) (program : Program) : Lower (List Script.Stmt) := do
  let sources := env.indicator.sortedSources.filter (· ∉ program.topLevelNames)
  let declared := program.declaredNames
  let history := env.indicator.sortedHistory.filter fun n => n ∉ declared && n ∉ priceSources
  let persistents := program.persistents
  let first ← sourceStmts env sources
  let second ← historyStmts env history
  let third ← cellStmts (persistents.zip (Program.cellNames [] persistents))
  return first ++ second ++ third

/-- The limit on the rounds of a loop if no other is set. -/
def standardLoopLimit : Nat := 10000

/-- How a program is lowered. -/
structure Options where
  /-- The builtins. -/
  registry : Builtins := .empty
  /-- The greatest number of rounds of a loop, zero for the standard one. -/
  loopLimit : Nat := 0
  /-- The name of the entry function, empty for the standard one. -/
  functionName : String := ""

/-- The name of the entry function if no other is set. -/
def standardFunctionName : String := "main"

end Lowering

/-- The script of a keyed program with its description, and the warnings after those of earlier
stages. -/
def Program.lower (program : Program) (options : Lowering.Options) (indicator : Indicator)
    (d : Diagnostics) : Except InternalError Script × Diagnostics :=
  let env : Lowering.Context :=
    { registry := options.registry
      indicator
      declarations := .ofProgram program
      cells := program.cells
      loopLimit := if options.loopLimit = 0 then Lowering.standardLoopLimit else options.loopLimit }
  let name :=
    if options.functionName = "" then Lowering.standardFunctionName else options.functionName
  let step : Lower (List Script.Stmt) := do
    let first ← Lowering.prologue env program
    return first ++ (← Lowering.body env false program)
  match step.run { diagnostics := d } with
  | .ok body s =>
    (.ok ⟨indicator.version, indicator.name, name, body⟩, s.diagnostics)
  | .error e s => (.error e, s.diagnostics)

end Pine
