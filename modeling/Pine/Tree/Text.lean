import Pine.Text.Quote
import Pine.Tree.Basic

/-!
# Text of trees

Every node has a text on one line. Operator expressions are always parenthesised, so the text of
an expression shows its tree; statements name their kind.
-/

namespace Pine

/-- What stands in a text for an absent node. -/
def absentText : String := "%!s(<nil>)"

/-- A list between brackets. -/
def bracketed (separator : String) (parts : List String) : String :=
  "[" ++ separator.intercalate parts ++ "]"

mutual

/-- The text of an expression. -/
def Expr.text : Expr → String
  | .missing => absentText
  | .number _ t => t
  | .string _ v => Text.quote v
  | .bool _ v => if v then "true" else "false"
  | .na _ => "na"
  | .color _ t => t
  | .name _ n => n
  | .member _ object property => object.text ++ "." ++ property
  | .index _ object offset => object.text ++ "[" ++ offset.text ++ "]"
  | .call _ _ callee args typeArgs =>
    callee.text ++
      (if typeArgs.isEmpty then "" else "<" ++ ", ".intercalate typeArgs ++ ">") ++
      "(" ++ ", ".intercalate (argTexts args) ++ ")"
  | .binary _ op left right => "(" ++ left.text ++ " " ++ op.spelling ++ " " ++ right.text ++ ")"
  | .unary _ op operand =>
    if op = .not then "(not " ++ operand.text ++ ")" else "(" ++ op.spelling ++ operand.text ++ ")"
  | .ternary _ cond yes no =>
    "(" ++ cond.text ++ " ? " ++ yes.text ++ " : " ++ no.text ++ ")"
  | .array _ elements => bracketed ", " (exprTexts elements)
  | .switch _ subject arms =>
    "SwitchExpr(" ++ (if subject.isMissing then "" else subject.text ++ ": ") ++
      " | ".intercalate (armTexts arms) ++ ")"
  | .ifElse _ cond yes no =>
    "IfExpr(" ++ cond.text ++ " then " ++ bracketed "; " (stmtTexts yes) ++ " else " ++
      bracketed "; " (stmtTexts no) ++ ")"

/-- The texts of expressions. -/
def exprTexts : List Expr → List String
  | [] => []
  | e :: es => e.text :: exprTexts es

/-- The texts of arguments. -/
def argTexts : List Arg → List String
  | [] => []
  | .mk name value :: args =>
    (if name = "" then value.text else name ++ "=" ++ value.text) :: argTexts args

/-- The texts of arms. -/
def armTexts : List Arm → List String
  | [] => []
  | .mk test body :: arms =>
    ((if test.isMissing then "default" else test.text) ++ " => " ++
      bracketed "; " (stmtTexts body)) :: armTexts arms

/-- The text of a statement. -/
def Stmt.text : Stmt → String
  | .missing => absentText
  | .decl _ _ name names qualifier type value =>
    "VarDecl(" ++ (if qualifier = "" then "" else qualifier ++ " ") ++
      (if type = "" then "" else type ++ " ") ++
      (if names.isEmpty then name else bracketed ", " names) ++ " = " ++ value.text ++ ")"
  | .assign _ target op value =>
    "Assignment(" ++ target.text ++ " " ++ op.spelling ++ " " ++ value.text ++ ")"
  | .func _ name params body isMethod =>
    (if isMethod then "MethodDecl(" else "FuncDecl(") ++ name ++ "(" ++
      ", ".intercalate (params.map (·.name)) ++ ") => " ++ bracketed "; " (stmtTexts body) ++ ")"
  | .ifElse _ cond yes no =>
    "IfStmt(if " ++ cond.text ++ " then " ++ bracketed "; " (stmtTexts yes) ++
      (if no.isEmpty then "" else " else " ++ bracketed "; " (stmtTexts no)) ++ ")"
  | .whileLoop _ cond body =>
    "WhileStmt(while " ++ cond.text ++ " do " ++ bracketed "; " (stmtTexts body) ++ ")"
  | .forCount _ _ init test update body _ =>
    "ForStmt(init=" ++ (if init.isMissing then "<nil>" else init.text) ++ ", test=" ++ test.text ++
      ", update=" ++ (if update.isMissing then "<nil>" else update.text) ++ ", body=" ++
      bracketed "; " (stmtTexts body) ++ ")"
  | .forIn _ index item collection body =>
    "ForInStmt(" ++ (if index = "" then item else "[" ++ index ++ ", " ++ item ++ "]") ++ " in " ++
      collection.text ++ " do " ++ bracketed "; " (stmtTexts body) ++ ")"
  | .ret _ value => "ReturnStmt(" ++ value.text ++ ")"
  | .brk _ => "BreakStmt"
  | .cont _ => "ContinueStmt"
  | .switch _ subject arms =>
    "SwitchStmt(" ++ (if subject.isMissing then "" else subject.text ++ ": ") ++
      " | ".intercalate (armTexts arms) ++ ")"
  | .typeDecl _ name fields =>
    "TypeDecl(" ++ name ++ "\x7b" ++ ", ".intercalate (fields.map (·.name)) ++ "\x7d)"
  | .importLib _ path localName => "ImportStmt(" ++ Text.quote path ++ " as " ++ localName ++ ")"
  | .exported _ decl => "ExportStmt(" ++ decl.text ++ ")"
  | .expr _ value => "ExprStmt(" ++ value.text ++ ")"

/-- The texts of statements. -/
def stmtTexts : List Stmt → List String
  | [] => []
  | s :: ss => s.text :: stmtTexts ss

end

/-- The text of a program. -/
def Program.text (program : Program) : String := bracketed "; " (stmtTexts program)

end Pine
