import Pine.Tree.Basic

/-!
# Keys

Keying a program gives every call and every declaration a key of its own, in walking order.
-/

namespace Pine

/-- A fresh key. -/
def freshKey : StateM Nat Nat := fun n => (n, n + 1)

mutual

/-- An expression with keys. -/
def Expr.keyed : Expr → StateM Nat Expr
  | .member p object property => return .member p (← object.keyed) property
  | .index p object offset => return .index p (← object.keyed) (← offset.keyed)
  | .call p _ callee args typeArgs => do
    let key ← freshKey
    return .call p key (← callee.keyed) (← keyedArgs args) typeArgs
  | .binary p op left right => return .binary p op (← left.keyed) (← right.keyed)
  | .unary p op operand => return .unary p op (← operand.keyed)
  | .ternary p cond yes no => return .ternary p (← cond.keyed) (← yes.keyed) (← no.keyed)
  | .array p elements => return .array p (← keyedExprs elements)
  | .switch p subject arms => return .switch p (← subject.keyed) (← keyedArms arms)
  | .ifElse p cond yes no =>
    return .ifElse p (← cond.keyed) (← keyedStmts yes) (← keyedStmts no)
  | e => return e

/-- Expressions with keys. -/
def keyedExprs : List Expr → StateM Nat (List Expr)
  | [] => return []
  | e :: es => return (← e.keyed) :: (← keyedExprs es)

/-- Arguments with keys. -/
def keyedArgs : List Arg → StateM Nat (List Arg)
  | [] => return []
  | .mk name value :: args => return .mk name (← value.keyed) :: (← keyedArgs args)

/-- Arms with keys. -/
def keyedArms : List Arm → StateM Nat (List Arm)
  | [] => return []
  | .mk test body :: arms =>
    return .mk (← test.keyed) (← keyedStmts body) :: (← keyedArms arms)

/-- Fields with keys. -/
def keyedFields : List Field → StateM Nat (List Field)
  | [] => return []
  | .mk name type initial :: fields =>
    return .mk name type (← initial.keyed) :: (← keyedFields fields)

/-- A statement with keys. -/
def Stmt.keyed : Stmt → StateM Nat Stmt
  | .decl p _ name names qualifier type value => do
    let key ← freshKey
    return .decl p key name names qualifier type (← value.keyed)
  | .assign p target op value => return .assign p (← target.keyed) op (← value.keyed)
  | .func p name params body isMethod => return .func p name params (← keyedStmts body) isMethod
  | .ifElse p cond yes no =>
    return .ifElse p (← cond.keyed) (← keyedStmts yes) (← keyedStmts no)
  | .whileLoop p cond body => return .whileLoop p (← cond.keyed) (← keyedStmts body)
  | .forCount p counter init test update body eitherWay =>
    return .forCount p counter (← init.keyed) (← test.keyed) (← update.keyed)
      (← keyedStmts body) eitherWay
  | .forIn p index item collection body =>
    return .forIn p index item (← collection.keyed) (← keyedStmts body)
  | .ret p value => return .ret p (← value.keyed)
  | .switch p subject arms => return .switch p (← subject.keyed) (← keyedArms arms)
  | .typeDecl p name fields => return .typeDecl p name (← keyedFields fields)
  | .exported p decl => return .exported p (← decl.keyed)
  | .expr p value => return .expr p (← value.keyed)
  | s => return s

/-- Statements with keys. -/
def keyedStmts : List Stmt → StateM Nat (List Stmt)
  | [] => return []
  | s :: ss => return (← s.keyed) :: (← keyedStmts ss)

end

/-- The program with keys from one on. -/
def Program.keyed (program : Program) : Program := (keyedStmts program 1).1

end Pine
