import Pine.Tree.Walk

/-!
# Live functions

A function is live if it is called from code that runs: from a statement that is not a plain
function declaration, or from a live function. The other top-level functions can be dropped.
Exported functions are always kept, and of several functions with one name the last one counts.
-/

namespace Pine

/-- The names that a node calls. A method call counts for the dotted name and for the method. -/
def Node.calledNames : Node → List String
  | .expr (.call _ _ (.name _ n) _ _) => [n]
  | .expr (.call _ _ (.member p object property) _ _) =>
    let path := (Expr.member p object property).path
    if path = "" then [property] else [property, path]
  | _ => []

/-- The names that a statement calls anywhere in it. -/
def Stmt.calls (s : Stmt) : List String := (s.walk fun _ => .parts).flatMap Node.calledNames

namespace Program

/-- The names that are called from statements other than plain function declarations. -/
def rootCalls (program : Program) : List String :=
  program.flatMap fun s =>
    match s with
    | .func .. => []
    | s => s.calls

/-- The names of the top-level functions with the names that each calls, the last function first. -/
def callTable (program : Program) : List (String × List String) :=
  program.reverse.filterMap fun s =>
    match s with
    | .func _ name _ _ _ => some (name, s.calls)
    | _ => none

/-- The names called by the live functions of a table that are not yet known as live. -/
def newCalls (table : List (String × List String)) (live : List String) : List String :=
  (live.flatMap fun name => (table.lookup name).getD []).filter (· ∉ live)

/-- The live names, grown for a number of rounds. -/
def grow (table : List (String × List String)) : Nat → List String → List String
  | 0, live => live
  | n + 1, live =>
    match newCalls table live with
    | [] => live
    | new => grow table n (live ++ new.eraseDups)

/-- The names called from the roots and, in turn, from the functions that these names call. A round
that adds no function is the last, so as many rounds as there are functions suffice. -/
def liveNames (program : Program) : List String :=
  let table := program.callTable
  grow table (table.length + 1) program.rootCalls.eraseDups

/-- The program without the top-level functions that are not live. -/
def prune (program : Program) : Program :=
  let live := program.liveNames
  program.filter fun s =>
    match s with
    | .func _ name _ _ _ => name ∈ live
    | _ => true

end Program

end Pine
