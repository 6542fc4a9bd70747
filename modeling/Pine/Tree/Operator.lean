/-!
# Operators

The operators of expressions and assignments. A tree that was read from source only holds the
named operators; a tree from elsewhere may hold any spelling, which is kept as it is.

## Main results

* `BinaryOp.spelling_ofSpelling` and its companions: no spelling is changed by reading it.
-/

namespace Pine

/-! ### Binary operators -/

/-- An operator between two expressions. -/
inductive BinaryOp where
  | or | and | eq | ne | gt | lt | ge | le | add | sub | mul | div | rem
  /-- A spelling that the language does not know. -/
  | other (spelling : String)
  deriving DecidableEq, Repr

namespace BinaryOp

/-- The source text of an operator. -/
def spelling : BinaryOp → String
  | or => "or"
  | and => "and"
  | eq => "=="
  | ne => "!="
  | gt => ">"
  | lt => "<"
  | ge => ">="
  | le => "<="
  | add => "+"
  | sub => "-"
  | mul => "*"
  | div => "/"
  | rem => "%"
  | other s => s

/-- The operators that the language knows. -/
def known : List BinaryOp := [or, and, eq, ne, gt, lt, ge, le, add, sub, mul, div, rem]

/-- The operator with a source text. -/
def ofSpelling (s : String) : BinaryOp := (known.find? (·.spelling = s)).getD (other s)

@[simp] theorem spelling_ofSpelling (s : String) : (ofSpelling s).spelling = s := by
  unfold ofSpelling
  cases h : known.find? (·.spelling = s) with
  | none => rfl
  | some op => simpa using List.find?_some h

end BinaryOp

/-! ### Unary operators -/

/-- An operator in front of an expression. -/
inductive UnaryOp where
  | not | neg | plus
  /-- A spelling that the language does not know. -/
  | other (spelling : String)
  deriving DecidableEq, Repr

namespace UnaryOp

/-- The source text of an operator. -/
def spelling : UnaryOp → String
  | not => "not"
  | neg => "-"
  | plus => "+"
  | other s => s

/-- The operators that the language knows. -/
def known : List UnaryOp := [not, neg, plus]

/-- The operator with a source text. -/
def ofSpelling (s : String) : UnaryOp := (known.find? (·.spelling = s)).getD (other s)

@[simp] theorem spelling_ofSpelling (s : String) : (ofSpelling s).spelling = s := by
  unfold ofSpelling
  cases h : known.find? (·.spelling = s) with
  | none => rfl
  | some op => simpa using List.find?_some h

end UnaryOp

/-! ### Assignment operators -/

/-- An operator between the target and the value of an assignment. -/
inductive AssignOp where
  /-- `=`, which assigns to a member. -/
  | bind
  /-- `:=` -/
  | set
  | add | sub | mul | div | rem
  /-- A spelling that the language does not know. -/
  | other (spelling : String)
  deriving DecidableEq, Repr

namespace AssignOp

/-- The source text of an operator. -/
def spelling : AssignOp → String
  | bind => "="
  | set => ":="
  | add => "+="
  | sub => "-="
  | mul => "*="
  | div => "/="
  | rem => "%="
  | other s => s

/-- The operators that the language knows. -/
def known : List AssignOp := [bind, set, add, sub, mul, div, rem]

/-- The operator with a source text. -/
def ofSpelling (s : String) : AssignOp := (known.find? (·.spelling = s)).getD (other s)

@[simp] theorem spelling_ofSpelling (s : String) : (ofSpelling s).spelling = s := by
  unfold ofSpelling
  cases h : known.find? (·.spelling = s) with
  | none => rfl
  | some op => simpa using List.find?_some h

end AssignOp

end Pine
