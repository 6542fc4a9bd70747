import Pine.Text.Affix

/-!
# Registries of builtins

A builtin of the source language becomes something in a script. A program can be compiled with any
builtins that can be looked up by name; a registry lists them.
-/

namespace Pine

/-- What a builtin becomes. -/
structure Builtin where
  /-- The text that replaces the name. -/
  target : String
  /-- Whether the first argument is passed with its history. -/
  takesSeries : Bool
  /-- Whether the host context is passed as the last argument. -/
  takesContext : Bool
  /-- The greatest number of positional arguments; not checked unless positive. -/
  arity : Int
  deriving DecidableEq, Repr

/-- What a program asks about builtins. -/
structure Builtins where
  /-- The builtin with a name. -/
  find? : String → Option Builtin
  /-- A name to suggest in place of one that no builtin has. -/
  suggestion? : String → Option String

/-- No builtins. -/
def Builtins.empty : Builtins := ⟨fun _ => none, fun _ => none⟩

/-- Builtins by name; of two entries with one name the first counts. -/
structure Registry where
  /-- The entries. -/
  entries : List (String × Builtin)
  /-- Whether the names may be listed, so that a similar name can be suggested. -/
  isListed : Bool
  deriving Repr

namespace Registry

/-- The registry without builtins. -/
def empty : Registry := ⟨[], true⟩

/-- The builtin with a name. -/
def find? (r : Registry) (name : String) : Option Builtin := r.entries.lookup name

/-- The names in ascending order. -/
def names (r : Registry) : List String := Text.sorted (r.entries.map Prod.fst).eraseDups

/-- A registry with further entries, the later ones in front. -/
def overlay (r : Registry) (others : List (List (String × Builtin))) : Registry :=
  { r with entries := others.foldl (fun entries other => other ++ entries) r.entries }

end Registry

end Pine
