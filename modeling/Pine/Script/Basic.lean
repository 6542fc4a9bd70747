import Pine.Tree.Operator

/-!
# Scripts

The compiler produces a script as a tree before it is written as text. Besides the usual
statements there are statements for what the compiler adds to a program: cells that keep a
variable from bar to bar, series with the history of a variable, and counters that bound loops.
-/

namespace Pine

namespace Script

mutual

/-- An expression of a script. -/
inductive Expr where
  /-- A text that stands for itself: a number, a constant, or the target of a builtin. -/
  | atom (text : String)
  /-- The value of a string. -/
  | literal (value : String)
  /-- A variable, function or class. -/
  | name (name : String)
  /-- `object.property` -/
  | member (object : Expr) (property : String)
  /-- `callee(args)` -/
  | call (callee : Expr) (args : List Expr)
  /-- The value of a variable some bars ago. -/
  | history (name : String) (offset : Expr)
  /-- A value with a history of its own, kept by the host under a key. -/
  | series (key : String) (value : Expr)
  /-- The value of an input. -/
  | input (id : Nat) (initial : Expr)
  /-- A plotted value. -/
  | plot (id : Nat) (value : Expr)
  /-- `left op right` -/
  | binary (op : BinaryOp) (left right : Expr)
  /-- `op operand` -/
  | unary (op : UnaryOp) (operand : Expr)
  /-- `cond ? yes : no` -/
  | ternary (cond yes no : Expr)
  /-- `(inner)` -/
  | paren (inner : Expr)
  /-- `[a, b, ...]` -/
  | array (elements : List Expr)
  /-- An object with named properties. -/
  | object (properties : List Property)
  /-- The value that a block of statements returns. -/
  | block (body : List Stmt)

/-- A property of an object. -/
inductive Property where
  | mk (name : String) (value : Expr)

/-- A statement of a script. -/
inductive Stmt where
  /-- A constant. -/
  | const (name : String) (value : Expr)
  /-- A variable. -/
  | bind (name : String) (value : Expr)
  /-- Variables without values. -/
  | bindAll (names : List String)
  /-- Variables that take apart an array. -/
  | bindTuple (names : List String) (value : Expr)
  /-- An assignment of the elements of an array. -/
  | assignTuple (names : List String) (value : Expr)
  /-- `target op value` -/
  | assign (target : Expr) (op : AssignOp) (value : Expr)
  /-- A library that the host provides. -/
  | importLib (name path : String)
  /-- A cell that the host keeps under a key. -/
  | cell (cell key : String)
  /-- Takes over the content of a cell from the previous bar. -/
  | carry (cell : String)
  /-- A variable with the content of its cell, or with an initial value if the cell is empty. -/
  | restore (name cell : String) (initial : Expr)
  /-- Puts a variable into its cell. -/
  | store (cell name : String)
  /-- The series of a variable, kept by the host under a key. -/
  | series (name key : String)
  /-- Puts a variable into its series. -/
  | record (name : String)
  /-- The function that reads the history of a variable. -/
  | accessor (name : String)
  /-- An expression evaluated for its effects. -/
  | expr (value : Expr)
  /-- A return with a value. -/
  | ret (value : Expr)
  /-- A return without a value. -/
  | retVoid
  /-- Leaves the innermost loop or switch. -/
  | brk
  /-- Goes on with the next round of the innermost loop. -/
  | cont
  /-- A function. -/
  | function (name : String) (params : List String) (body : List Stmt)
  /-- A function as a method of a class, with the object as its first argument. -/
  | shim (className method function : String)
  /-- A choice between blocks. -/
  | ifElse (cond : Expr) (yes : List Stmt) (otherwise : Otherwise)
  /-- A block on its own. -/
  | block (body : List Stmt)
  /-- A loop counter at zero. -/
  | counter (loop : Nat)
  /-- Counts a round of a loop and stops the script when there are too many. -/
  | guard (loop limit : Nat)
  /-- A loop on a condition. -/
  | whileLoop (cond : Expr) (body : List Stmt)
  /-- A loop that counts in a fixed direction. -/
  | forStep (name : String) (first : Expr) (test : BinaryOp) (last : Expr) (update : AssignOp)
      (step : Expr) (body : List Stmt)
  /-- A loop that counts up or down to its bound by ones. -/
  | forEither (name : String) (loop : Nat) (first last : Expr) (body : List Stmt)
  /-- A loop over the items of a collection. -/
  | forOf (item : String) (collection : Expr) (body : List Stmt)
  /-- A loop over the items of a collection with their indexes. -/
  | forEntries (index item : String) (collection : Expr) (body : List Stmt)
  /-- A choice by comparison with a value; every case ends by leaving the switch. -/
  | switch (subject : Expr) (cases : List Case)
  /-- A class with fields. -/
  | classDecl (name : String) (slots : List Slot)

/-- What follows a block of a choice. -/
inductive Otherwise where
  | nothing
  | block (body : List Stmt)
  | elseIf (cond : Expr) (body : List Stmt) (otherwise : Otherwise)

/-- A case of a switch. -/
inductive Case where
  | test (value : Expr) (body : List Stmt)
  | default (body : List Stmt)

/-- A field of a class: the parameter that sets it, its name in the object, and the value that it
has otherwise. -/
inductive Slot where
  | mk (param member : String) (initial : Expr)

end

instance : Inhabited Expr := ⟨.atom ""⟩
instance : Inhabited Stmt := ⟨.retVoid⟩

/-- The value that is not a number. -/
def Expr.nan : Expr := .atom "NaN"

/-- The value of an argument that is not given. -/
def Expr.undefined : Expr := .atom "undefined"

end Script

/-- A whole script: an entry function with a heading. -/
structure Script where
  /-- The version of the source language, zero if not stated. -/
  version : Nat
  /-- The title of the indicator, possibly empty. -/
  title : String
  /-- The name of the entry function. -/
  functionName : String
  /-- The body of the entry function. -/
  body : List Script.Stmt

end Pine
