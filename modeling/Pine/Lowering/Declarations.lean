import Pine.Text.Affix
import Pine.Tree.Text

/-!
# Declarations of a program

The functions and types that a program declares at its top level; exported declarations count. Of
several declarations with one name the last one holds.
-/

namespace Pine

/-- A function of a program. -/
structure Function where
  /-- The name. -/
  name : String
  /-- The parameters. -/
  params : List Param
  /-- Whether it can be called as a method. -/
  isMethod : Bool
  /-- The declaration. -/
  decl : Stmt

/-- A type of a program. -/
structure Record where
  /-- The name. -/
  name : String
  /-- The names of the fields. -/
  fields : List String
  /-- The declaration. -/
  decl : Stmt

/-- The functions and types of a program; of two with one name the first counts. -/
structure Declarations where
  /-- The functions. -/
  functions : List Function := []
  /-- The types. -/
  records : List Record := []

namespace Declarations

/-- With the function or type that a statement declares. -/
def add (d : Declarations) (s : Stmt) : Declarations :=
  match s with
  | .func _ name params _ isMethod =>
    { d with functions := ⟨name, params, isMethod, s⟩ :: d.functions.filter (·.name ≠ name) }
  | .typeDecl _ name fields =>
    { d with records := ⟨name, fields.map Field.name, s⟩ :: d.records.filter (·.name ≠ name) }
  | _ => d

/-- What a statement declares, also behind exports. -/
def declaredBy : Stmt → Stmt
  | .exported _ decl => declaredBy decl
  | s => s

/-- The functions and types that a program declares. -/
def ofProgram (program : Program) : Declarations :=
  program.foldl (fun d s => d.add (declaredBy s)) {}

/-- The function with a name. -/
def function? (d : Declarations) (name : String) : Option Function :=
  d.functions.find? (·.name = name)

/-- The function with a name, if it is a method. -/
def method? (d : Declarations) (name : String) : Option Function :=
  (d.function? name).filter (·.isMethod)

/-- The type with a name. -/
def record? (d : Declarations) (name : String) : Option Record := d.records.find? (·.name = name)

/-- A listing by name under a title, if there is anything to list. -/
def listing (title : String) (lines : List (String × String)) : String :=
  if lines.isEmpty then ""
  else
    let sorted := lines.mergeSort fun a b => !decide (b.1 < a.1)
    title ++ ":\n" ++ String.join (sorted.map fun l => "  " ++ l.2 ++ "\n")

/-- A listing of all functions and types. -/
def text (d : Declarations) : String :=
  listing "Functions" (d.functions.map fun f => (f.name, s!"{f.name}/{f.params.length}")) ++
    listing "Types" (d.records.map fun r => (r.name, s!"type {r.name} ({r.fields.length} fields)"))

end Declarations

/-- What follows the last blank of a type, or the whole type without one. -/
def baseType (type : String) : String :=
  String.ofList (type.toList.reverse.takeWhile (· ≠ ' ')).reverse

end Pine
