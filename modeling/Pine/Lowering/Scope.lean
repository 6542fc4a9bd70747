import Pine.Script.Name

/-!
# Scopes

The names that are bound at a place of a script. The scope of the entry function is always there;
the scopes of blocks open and close inside of it.
-/

namespace Pine

/-- What kind of binding a name has. -/
inductive SymbolKind where
  | plain
  | persistent
  | param
  | loop
  | library
  deriving DecidableEq, Repr

namespace SymbolKind

/-- The name of a kind. -/
def name : SymbolKind → String
  | plain => "var"
  | persistent => "persistent"
  | param => "param"
  | loop => "loop"
  | library => "import"

/-- All kinds. -/
def all : List SymbolKind := [plain, persistent, param, loop, library]

/-- The kind with a name. -/
def ofName? (s : String) : Option SymbolKind := all.find? (·.name = s)

end SymbolKind

/-- A bound name. -/
structure Symbol where
  /-- The name in the source. -/
  name : String
  /-- The kind of its binding. -/
  kind : SymbolKind
  /-- Whether it has a series with its history. -/
  hasSeries : Bool := false
  /-- The cell that keeps it from bar to bar. -/
  cell : Option String := none
  deriving DecidableEq, Repr

/-- The name in the script. -/
def Symbol.scriptName (s : Symbol) : String := Script.safeName s.name

/-- A listing of a symbol. -/
def Symbol.text (s : Symbol) : String :=
  "  " ++ Text.padRight 20 s.name ++ "  " ++ s.scriptName ++ " (" ++ s.kind.name ++ ", series: " ++
    (if s.hasSeries then "true" else "false") ++ ")\n"

/-- The names bound by one block. -/
abbrev Scope := List Symbol

namespace Scope

/-- The symbol of a name. -/
def find? (scope : Scope) (name : String) : Option Symbol := List.find? (·.name = name) scope

/-- Changes the symbol of a name. -/
def update (scope : Scope) (name : String) (f : Symbol → Symbol) : Scope :=
  scope.map fun s => if s.name = name then f s else s

/-- A listing of a scope by name. -/
def text (scope : Scope) : String :=
  String.join ((scope.mergeSort fun a b => !decide (b.name < a.name)).map Symbol.text)

end Scope

/-- The open scopes. -/
structure Scopes where
  /-- The scope of the entry function. -/
  entry : Scope := []
  /-- The scopes of blocks, the innermost first. -/
  inner : List Scope := []
  deriving Repr

namespace Scopes

/-- The number of blocks around a place. -/
def depth (s : Scopes) : Nat := s.inner.length

/-- Opens the scope of a block. -/
def enter (s : Scopes) : Scopes := { s with inner := [] :: s.inner }

/-- Closes the innermost scope of a block, if there is one. -/
def leave (s : Scopes) : Scopes := { s with inner := s.inner.tail }

/-- The innermost scope. -/
def current (s : Scopes) : Scope := s.inner.headD s.entry

/-- All scopes from the innermost one. -/
def toList (s : Scopes) : List Scope := s.inner ++ [s.entry]

/-- The innermost symbol of a name. -/
def find? (s : Scopes) (name : String) : Option Symbol := s.toList.findSome? (·.find? name)

/-- One more symbol in the innermost scope. -/
def add (s : Scopes) (symbol : Symbol) : Scopes :=
  match s.inner with
  | [] => { s with entry := symbol :: s.entry }
  | scope :: inner => { s with inner := (symbol :: scope) :: inner }

/-- Binds a name in the innermost scope, unless it is bound there already. -/
def define (s : Scopes) (name : String) (kind : SymbolKind) : Scopes :=
  if (s.current.find? name).isSome then s else s.add { name, kind }

/-- Changes the symbol of a name in the first scope that has it. -/
def updateFirst (name : String) (f : Symbol → Symbol) : List Scope → Option (List Scope)
  | [] => none
  | scope :: scopes =>
    if (scope.find? name).isSome then some (scope.update name f :: scopes)
    else (updateFirst name f scopes).map (scope :: ·)

/-- Changes the innermost symbol of a name. -/
def update (s : Scopes) (name : String) (f : Symbol → Symbol) : Scopes :=
  match updateFirst name f s.inner with
  | some inner => { s with inner }
  | none => { s with entry := s.entry.update name f }

/-- A listing of scopes from a number on. -/
def texts : Nat → List Scope → String
  | _, [] => ""
  | n, scope :: scopes => "Scope " ++ toString n ++ ":\n" ++ scope.text ++ texts (n + 1) scopes

/-- A listing of all scopes from the entry function inwards. -/
def text (s : Scopes) : String := texts 0 s.toList.reverse

end Scopes

end Pine
