import Pine.Tree.Basic

/-!
# Walks over a tree

A walk lists the nodes of a tree, each before its parts and parts in source order. For every node
it is decided whether its parts are listed too, and for a call whether its callee is among them.
Absent nodes are never listed.
-/

namespace Pine

/-- A node of a tree. -/
inductive Node where
  | program (stmts : Program)
  | expr (e : Expr)
  | stmt (s : Stmt)

namespace Node

/-- The kind of a node. -/
def kind : Node → String
  | program _ => "Program"
  | expr e => e.kind
  | stmt s => s.kind

/-- The position of a node. -/
def pos : Node → Pos
  | program _ => ⟨1, 1⟩
  | expr e => e.pos
  | stmt s => s.pos

end Node

/-- How a walk goes on below a node. -/
inductive Descent where
  /-- Not at all. -/
  | stop
  /-- With all parts. -/
  | parts
  /-- With the arguments of a call and without its callee; below other nodes with all parts. -/
  | arguments
  deriving DecidableEq, Repr

/-- A node, followed by its parts if the walk goes on. -/
def listed (enter : Node → Descent) (n : Node) (parts : List Node) : List Node :=
  n :: if enter n = .stop then [] else parts

mutual

/-- The nodes of an expression. -/
def Expr.walk (enter : Node → Descent) : Expr → List Node
  | .missing => []
  | .number p t => [.expr (.number p t)]
  | .string p v => [.expr (.string p v)]
  | .bool p v => [.expr (.bool p v)]
  | .na p => [.expr (.na p)]
  | .color p t => [.expr (.color p t)]
  | .name p n => [.expr (.name p n)]
  | .member p object property =>
    listed enter (.expr (.member p object property)) (object.walk enter)
  | .index p object offset =>
    listed enter (.expr (.index p object offset)) (object.walk enter ++ offset.walk enter)
  | .call p key callee args typeArgs =>
    .expr (.call p key callee args typeArgs) ::
      match enter (.expr (.call p key callee args typeArgs)) with
      | .stop => []
      | .parts => callee.walk enter ++ walkArgs enter args
      | .arguments => walkArgs enter args
  | .binary p op left right =>
    listed enter (.expr (.binary p op left right)) (left.walk enter ++ right.walk enter)
  | .unary p op operand => listed enter (.expr (.unary p op operand)) (operand.walk enter)
  | .ternary p cond yes no =>
    listed enter (.expr (.ternary p cond yes no))
      (cond.walk enter ++ yes.walk enter ++ no.walk enter)
  | .array p elements => listed enter (.expr (.array p elements)) (walkExprs enter elements)
  | .switch p subject arms =>
    listed enter (.expr (.switch p subject arms)) (subject.walk enter ++ walkArms enter arms)
  | .ifElse p cond yes no =>
    listed enter (.expr (.ifElse p cond yes no))
      (cond.walk enter ++ walkStmts enter yes ++ walkStmts enter no)

/-- The nodes of expressions. -/
def walkExprs (enter : Node → Descent) : List Expr → List Node
  | [] => []
  | e :: es => e.walk enter ++ walkExprs enter es

/-- The nodes of arguments. -/
def walkArgs (enter : Node → Descent) : List Arg → List Node
  | [] => []
  | .mk _ value :: args => value.walk enter ++ walkArgs enter args

/-- The nodes of arms. -/
def walkArms (enter : Node → Descent) : List Arm → List Node
  | [] => []
  | .mk test body :: arms => test.walk enter ++ walkStmts enter body ++ walkArms enter arms

/-- The nodes of fields. -/
def walkFields (enter : Node → Descent) : List Field → List Node
  | [] => []
  | .mk _ _ initial :: fields => initial.walk enter ++ walkFields enter fields

/-- The nodes of a statement. -/
def Stmt.walk (enter : Node → Descent) : Stmt → List Node
  | .missing => []
  | .decl p key name names qualifier type value =>
    listed enter (.stmt (.decl p key name names qualifier type value)) (value.walk enter)
  | .assign p target op value =>
    listed enter (.stmt (.assign p target op value)) (target.walk enter ++ value.walk enter)
  | .func p name params body isMethod =>
    listed enter (.stmt (.func p name params body isMethod)) (walkStmts enter body)
  | .ifElse p cond yes no =>
    listed enter (.stmt (.ifElse p cond yes no))
      (cond.walk enter ++ walkStmts enter yes ++ walkStmts enter no)
  | .whileLoop p cond body =>
    listed enter (.stmt (.whileLoop p cond body)) (cond.walk enter ++ walkStmts enter body)
  | .forCount p counter init test update body eitherWay =>
    listed enter (.stmt (.forCount p counter init test update body eitherWay))
      (init.walk enter ++ test.walk enter ++ update.walk enter ++ walkStmts enter body)
  | .forIn p index item collection body =>
    listed enter (.stmt (.forIn p index item collection body))
      (collection.walk enter ++ walkStmts enter body)
  | .ret p value => listed enter (.stmt (.ret p value)) (value.walk enter)
  | .brk p => [.stmt (.brk p)]
  | .cont p => [.stmt (.cont p)]
  | .switch p subject arms =>
    listed enter (.stmt (.switch p subject arms)) (subject.walk enter ++ walkArms enter arms)
  | .typeDecl p name fields =>
    listed enter (.stmt (.typeDecl p name fields)) (walkFields enter fields)
  | .importLib p path localName => [.stmt (.importLib p path localName)]
  | .exported p decl => listed enter (.stmt (.exported p decl)) (decl.walk enter)
  | .expr p value => listed enter (.stmt (.expr p value)) (value.walk enter)

/-- The nodes of statements. -/
def walkStmts (enter : Node → Descent) : List Stmt → List Node
  | [] => []
  | s :: ss => s.walk enter ++ walkStmts enter ss

end

/-- The nodes of a tree in walking order. -/
def Node.walk (enter : Node → Descent) : Node → List Node
  | .program stmts => listed enter (.program stmts) (walkStmts enter stmts)
  | .expr e => e.walk enter
  | .stmt s => s.walk enter

/-- All nodes of a program below its root. -/
def Program.nodes (program : Program) : List Node := walkStmts (fun _ => .parts) program

end Pine
