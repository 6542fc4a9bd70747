import Pine.Tree.Basic

/-!
# Arguments of calls

An argument can be found by its name or by its place among the positional arguments; a function
that accepts both prefers the name.
-/

namespace Pine.Args

/-- Where the first argument with a name stands. -/
def named? (args : List Arg) (name : String) : Option Nat := args.findIdx? (·.name = name)

/-- Where the positional argument with a number stands. -/
def positional? : List Arg → Nat → Option Nat
  | [], _ => none
  | a :: args, i =>
    if a.name ≠ "" then (positional? args i).map (· + 1)
    else
      match i with
      | 0 => some 0
      | i + 1 => (positional? args i).map (· + 1)

/-- The value at a place in the list. -/
def valueAt (args : List Arg) (place : Option Nat) : Expr :=
  (place.bind fun i => args[i]?.map Arg.value).getD .missing

/-- Where an argument stands that is given by name or at a position; an absent value counts as not
given by name. -/
def index? (args : List Arg) (name : String) (position : Option Nat) : Option Nat :=
  let byName := named? args name
  if (valueAt args byName).isMissing then position.bind (positional? args) else byName

/-- The value of a named argument. -/
def named (args : List Arg) (name : String) : Expr := valueAt args (named? args name)

/-- The value of a positional argument. -/
def positional (args : List Arg) (i : Nat) : Expr := valueAt args (positional? args i)

/-- The value of an argument given by name or at a position. -/
def find (args : List Arg) (name : String) (position : Option Nat) : Expr :=
  valueAt args (index? args name position)

end Pine.Args
