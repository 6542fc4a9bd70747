import Pine.Tree.Operator

/-!
# Programs as trees

A program is a list of statements; statements hold expressions, and the block forms of `if` and
`switch` are expressions that hold statements. Every node knows the position of the token that
starts it.

Calls and declarations also carry a key. Reading a source leaves all keys zero; keying a
program gives each of these nodes a key of its own, so that facts can be attached to a node and
not to its text or its position, which two nodes may share.
-/

namespace Pine

/-- A position in the source; lines and columns count from one, and a line that is not positive
stands for no position. -/
structure Pos where
  /-- The line. -/
  line : Int
  /-- The column. -/
  column : Int
  deriving DecidableEq, Repr, Inhabited

/-- A parameter of a function. -/
structure Param where
  /-- The name. -/
  name : String
  /-- The words in front of the name, joined by blanks. -/
  type : String
  deriving DecidableEq, Repr

mutual

/-- An expression. -/
inductive Expr where
  /-- No expression: the value of a bare return, the subject of a switch on conditions, the test
  of a default arm, an absent default, or a hole in a tree that was not read from source. -/
  | missing
  /-- A number in its source spelling. -/
  | number (pos : Pos) (text : String)
  /-- The value of a string. -/
  | string (pos : Pos) (value : String)
  /-- `true` or `false` -/
  | bool (pos : Pos) (value : Bool)
  /-- The value that is not available. -/
  | na (pos : Pos)
  /-- A color in its source spelling. -/
  | color (pos : Pos) (text : String)
  /-- A variable, function or namespace. -/
  | name (pos : Pos) (name : String)
  /-- `object.property` -/
  | member (pos : Pos) (object : Expr) (property : String)
  /-- `object[offset]`, the value some bars ago -/
  | index (pos : Pos) (object offset : Expr)
  /-- `callee<typeArgs>(args)` -/
  | call (pos : Pos) (key : Nat) (callee : Expr) (args : List Arg) (typeArgs : List String)
  /-- `left op right` -/
  | binary (pos : Pos) (op : BinaryOp) (left right : Expr)
  /-- `op operand` -/
  | unary (pos : Pos) (op : UnaryOp) (operand : Expr)
  /-- `cond ? yes : no` -/
  | ternary (pos : Pos) (cond yes no : Expr)
  /-- `[a, b, ...]` -/
  | array (pos : Pos) (elements : List Expr)
  /-- A switch used for its value. -/
  | switch (pos : Pos) (subject : Expr) (arms : List Arm)
  /-- An if used for its value. -/
  | ifElse (pos : Pos) (cond : Expr) (yes no : List Stmt)

/-- An argument of a call; a positional argument has the empty name. -/
inductive Arg where
  | mk (name : String) (value : Expr)

/-- An arm of a switch; the default arm has no test. -/
inductive Arm where
  | mk (test : Expr) (body : List Stmt)

/-- A field of a type. -/
inductive Field where
  | mk (name type : String) (initial : Expr)

/-- A statement. -/
inductive Stmt where
  /-- No statement, in a tree that was not read from source. -/
  | missing
  /-- A declaration of one name, or of several names that take apart a tuple. -/
  | decl (pos : Pos) (key : Nat) (name : String) (names : List String)
      (qualifier type : String) (value : Expr)
  /-- `target op value` -/
  | assign (pos : Pos) (target : Expr) (op : AssignOp) (value : Expr)
  /-- A function or method declaration. -/
  | func (pos : Pos) (name : String) (params : List Param) (body : List Stmt) (isMethod : Bool)
  /-- An if used for its effects; an else-if chain nests in `no`. -/
  | ifElse (pos : Pos) (cond : Expr) (yes no : List Stmt)
  /-- A loop on a condition. -/
  | whileLoop (pos : Pos) (cond : Expr) (body : List Stmt)
  /-- A counting loop with its start, test and step. A loop in either direction has no step of its
  own and a bound that is only known when it runs. -/
  | forCount (pos : Pos) (counter : String) (init : Stmt) (test : Expr) (update : Stmt)
      (body : List Stmt) (eitherWay : Bool)
  /-- A loop over the items of a collection, with their indexes if `index` is not empty. -/
  | forIn (pos : Pos) (index item : String) (collection : Expr) (body : List Stmt)
  /-- A return. -/
  | ret (pos : Pos) (value : Expr)
  /-- Leaves the innermost loop. -/
  | brk (pos : Pos)
  /-- Goes on with the next round of the innermost loop. -/
  | cont (pos : Pos)
  /-- A switch used for its effects. -/
  | switch (pos : Pos) (subject : Expr) (arms : List Arm)
  /-- A type with named fields. -/
  | typeDecl (pos : Pos) (name : String) (fields : List Field)
  /-- A library under a local name. -/
  | importLib (pos : Pos) (path localName : String)
  /-- An exported declaration. -/
  | exported (pos : Pos) (decl : Stmt)
  /-- An expression evaluated for its effects, or at the end of a block for its value. -/
  | expr (pos : Pos) (value : Expr)

end

instance : Inhabited Expr := ⟨.missing⟩
instance : Inhabited Stmt := ⟨.missing⟩

/-- A program is the list of its statements. -/
abbrev Program := List Stmt

/-! ### Arguments, arms and fields -/

namespace Arg

/-- The name of an argument, empty for a positional one. -/
def name : Arg → String
  | mk name _ => name

/-- The value of an argument. -/
def value : Arg → Expr
  | mk _ value => value

end Arg

namespace Arm

/-- The test of an arm. -/
def test : Arm → Expr
  | mk test _ => test

/-- The body of an arm. -/
def body : Arm → List Stmt
  | mk _ body => body

end Arm

namespace Field

/-- The name of a field. -/
def name : Field → String
  | mk name _ _ => name

/-- The value that a field starts with, if given. -/
def initial : Field → Expr
  | mk _ _ initial => initial

end Field

/-! ### Nodes -/

namespace Expr

/-- Whether there is no expression. -/
def isMissing : Expr → Bool
  | missing => true
  | _ => false

/-- The position of an expression. -/
def pos : Expr → Pos
  | missing => ⟨0, 0⟩
  | number p _ | string p _ | bool p _ | na p | color p _ | name p _ | member p _ _ | index p _ _
  | call p _ _ _ _ | binary p _ _ _ | unary p _ _ | ternary p _ _ _ | array p _ | switch p _ _
  | ifElse p _ _ _ => p

/-- The kind of an expression node. -/
def kind : Expr → String
  | missing => ""
  | number .. => "NumberLit"
  | string .. => "StringLit"
  | bool .. => "BoolLit"
  | na .. => "NaLit"
  | color .. => "ColorLit"
  | name .. => "Ident"
  | member .. => "MemberExpr"
  | index .. => "IndexExpr"
  | call .. => "CallExpr"
  | binary .. => "BinaryExpr"
  | unary .. => "UnaryExpr"
  | ternary .. => "TernaryExpr"
  | array .. => "ArrayLit"
  | switch .. => "SwitchExpr"
  | ifElse .. => "IfExpr"

/-- The dotted name that an expression spells, such as `ta.sma`; empty for any other expression. -/
def path : Expr → String
  | name _ n => n
  | member _ object property =>
    match path object with
    | "" => ""
    | root => root ++ "." ++ property
  | _ => ""

end Expr

namespace Stmt

/-- Whether there is no statement. -/
def isMissing : Stmt → Bool
  | missing => true
  | _ => false

/-- The position of a statement. -/
def pos : Stmt → Pos
  | missing => ⟨0, 0⟩
  | decl p _ _ _ _ _ _ | assign p _ _ _ | func p _ _ _ _ | ifElse p _ _ _ | whileLoop p _ _
  | forCount p _ _ _ _ _ _ | forIn p _ _ _ _ | ret p _ | brk p | cont p | switch p _ _
  | typeDecl p _ _ | importLib p _ _ | exported p _ | expr p _ => p

/-- The kind of a statement node. -/
def kind : Stmt → String
  | missing => ""
  | decl .. => "VarDecl"
  | assign .. => "Assignment"
  | func .. => "FuncDecl"
  | ifElse .. => "IfStmt"
  | whileLoop .. => "WhileStmt"
  | forCount .. => "ForStmt"
  | forIn .. => "ForInStmt"
  | ret .. => "ReturnStmt"
  | brk .. => "BreakStmt"
  | cont .. => "ContinueStmt"
  | switch .. => "SwitchStmt"
  | typeDecl .. => "TypeDecl"
  | importLib .. => "ImportStmt"
  | exported .. => "ExportStmt"
  | expr .. => "ExprStmt"

/-- The names that a declaration with a single name and a tuple of names binds. -/
def declared (name : String) (names : List String) : List String :=
  if names.isEmpty then [name] else names

end Stmt

end Pine
