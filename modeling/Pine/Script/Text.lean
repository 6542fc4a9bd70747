import Pine.Script.Basic
import Pine.Script.Name
import Pine.Text.Escape

/-!
# Text of scripts

A statement takes a line of its own, two blanks deeper for each block around it. An expression
goes on the line of its statement; only a block inside of an expression takes further lines, one
step deeper than that statement.
-/

namespace Pine

/-! ### Operators -/

/-- An operator between two expressions of a script. -/
def BinaryOp.scriptText : BinaryOp → String
  | .and => "&&"
  | .or => "||"
  | .eq => "==="
  | .ne => "!=="
  | op => op.spelling

/-- An operator in front of an expression of a script. -/
def UnaryOp.scriptText : UnaryOp → String
  | .not => "!"
  | op => op.spelling

/-- An operator of an assignment of a script. -/
def AssignOp.scriptText : AssignOp → String
  | .set => "="
  | op => op.spelling

namespace Script

/-! ### Lines -/

/-- The blanks in front of a line. -/
def margin (depth : Nat) : String := String.ofList (List.replicate (2 * depth) ' ')

/-- A line of text. -/
def line (depth : Nat) (text : String) : String := margin depth ++ text ++ "\n"

/-- Texts with commas between them. -/
def commas : List String → String
  | [] => ""
  | [s] => s
  | s :: rest => s ++ ", " ++ commas rest

/-- The message of a loop that runs too long. -/
def loopMessage (limit : Nat) : String :=
  "Loop limit exceeded: more than " ++ toString limit ++ " iterations"

mutual

/-- The text of an expression in a statement at a depth. -/
def Expr.text (depth : Nat) : Expr → String
  | .atom t => t
  | .literal v => Text.escaped v
  | .name n => n
  | .member object property => object.text depth ++ "." ++ property
  | .call callee args => callee.text depth ++ "(" ++ commas (exprTexts depth args) ++ ")"
  | .history n offset => historyName n ++ "(" ++ offset.text depth ++ ")"
  | .series key value => "_wrapSeries(ctx, " ++ Text.escaped key ++ ", " ++ value.text depth ++ ")"
  | .input id initial => "ctx.input(" ++ toString id ++ ", " ++ initial.text depth ++ ")"
  | .plot id value => "ctx.plot(" ++ toString id ++ ", " ++ value.text depth ++ ")"
  | .binary op left right => left.text depth ++ " " ++ op.scriptText ++ " " ++ right.text depth
  | .unary op operand => op.scriptText ++ operand.text depth
  | .ternary cond yes no =>
    cond.text depth ++ " ? " ++ yes.text depth ++ " : " ++ no.text depth
  | .paren inner => "(" ++ inner.text depth ++ ")"
  | .array elements => "[" ++ commas (exprTexts depth elements) ++ "]"
  | .object properties => "\x7b" ++ commas (propertyTexts depth properties) ++ "\x7d"
  | .block body => "(() => \x7b\n" ++ stmtsText (depth + 1) body ++ margin depth ++ "\x7d)()"

/-- The texts of expressions. -/
def exprTexts (depth : Nat) : List Expr → List String
  | [] => []
  | e :: es => e.text depth :: exprTexts depth es

/-- The texts of properties. -/
def propertyTexts (depth : Nat) : List Property → List String
  | [] => []
  | .mk name value :: ps => (name ++ ": " ++ value.text depth) :: propertyTexts depth ps

/-- The lines of a statement at a depth. -/
def Stmt.text (depth : Nat) : Stmt → String
  | .const n value => line depth ("const " ++ n ++ " = " ++ value.text depth ++ ";")
  | .bind n value => line depth ("let " ++ n ++ " = " ++ value.text depth ++ ";")
  | .bindAll names => line depth ("let " ++ commas names ++ ";")
  | .bindTuple names value =>
    line depth ("let [" ++ commas names ++ "] = " ++ value.text depth ++ ";")
  | .assignTuple names value =>
    line depth ("[" ++ commas names ++ "] = " ++ value.text depth ++ ";")
  | .assign target op value =>
    line depth (target.text depth ++ " " ++ op.scriptText ++ " " ++ value.text depth ++ ";")
  | .importLib n path =>
    line depth ("const " ++ n ++ " = _import(ctx, " ++ Text.escaped path ++ ");")
  | .cell cell key =>
    line depth ("const " ++ cell ++ " = ctx.newSeries(" ++ Text.escaped key ++ ");")
  | .carry cell => line depth (cell ++ ".set(" ++ cell ++ ".get(1) || null);")
  | .restore n cell initial =>
    line depth
      ("let " ++ n ++ " = (" ++ cell ++ ".get(0) ?? [" ++ initial.text depth ++ "])[0];")
  | .store cell n => line depth (cell ++ ".set([" ++ n ++ "]);")
  | .series n key =>
    line depth ("const " ++ seriesName n ++ " = ctx.newSeries(" ++ Text.escaped key ++ ");")
  | .record n => line depth (seriesName n ++ ".set(" ++ n ++ ");")
  | .accessor n =>
    line depth ("function " ++ historyName n ++ "(offset) \x7b return offset === 0 ? " ++ n ++
      " : " ++ seriesName n ++ ".get(offset); \x7d")
  | .expr value => line depth (value.text depth ++ ";")
  | .ret value => line depth ("return " ++ value.text depth ++ ";")
  | .retVoid => line depth "return;"
  | .brk => line depth "break;"
  | .cont => line depth "continue;"
  | .function n params body =>
    line depth ("function " ++ n ++ "(" ++ commas params ++ ") \x7b") ++
      stmtsText (depth + 1) body ++ line depth "\x7d"
  | .shim className method function =>
    line depth (className ++ ".prototype." ++ method ++ " = function (...args) \x7b return " ++
      function ++ "(this, ...args); \x7d;")
  | .ifElse cond yes otherwise =>
    line depth ("if (" ++ cond.text depth ++ ") \x7b") ++ stmtsText (depth + 1) yes ++
      otherwise.text depth
  | .block body => line depth "\x7b" ++ stmtsText (depth + 1) body ++ line depth "\x7d"
  | .counter loop => line depth ("let " ++ loopName loop ++ " = 0;")
  | .guard loop limit =>
    line depth ("if (++" ++ loopName loop ++ " > " ++ toString limit ++ ") throw new Error(" ++
      Text.escaped (loopMessage limit) ++ ");")
  | .whileLoop cond body =>
    line depth ("while (" ++ cond.text depth ++ ") \x7b") ++ stmtsText (depth + 1) body ++
      line depth "\x7d"
  | .forStep n first test last update step body =>
    line depth ("for (let " ++ n ++ " = " ++ first.text depth ++ "; " ++ n ++ " " ++
        test.spelling ++ " " ++ last.text depth ++ "; " ++ n ++ " " ++ update.spelling ++ " " ++
        step.text depth ++ ") \x7b") ++
      stmtsText (depth + 1) body ++ line depth "\x7d"
  | .forEither n loop first last body =>
    let bound := last.text depth
    let direction := directionName loop
    line depth ("for (let " ++ n ++ " = " ++ first.text depth ++ ", " ++ direction ++ " = " ++ n ++
        " <= " ++ bound ++ " ? 1 : -1; " ++ direction ++ " > 0 ? " ++ n ++ " <= " ++ bound ++
        " : " ++ n ++ " >= " ++ bound ++ "; " ++ n ++ " += " ++ direction ++ ") \x7b") ++
      stmtsText (depth + 1) body ++ line depth "\x7d"
  | .forOf item collection body =>
    line depth ("for (const " ++ item ++ " of " ++ collection.text depth ++ ") \x7b") ++
      stmtsText (depth + 1) body ++ line depth "\x7d"
  | .forEntries index item collection body =>
    line depth ("for (const [" ++ index ++ ", " ++ item ++ "] of (" ++ collection.text depth ++
        ").entries()) \x7b") ++
      stmtsText (depth + 1) body ++ line depth "\x7d"
  | .switch subject cases =>
    line depth ("switch (" ++ subject.text depth ++ ") \x7b") ++ casesText (depth + 1) cases ++
      line depth "\x7d"
  | .classDecl n slots =>
    line depth ("class " ++ n ++ " \x7b") ++
      line (depth + 1) ("constructor(" ++ commas (slotTexts depth slots) ++ ") \x7b") ++
      settersText (depth + 2) slots ++
      line (depth + 1) "\x7d" ++
      line (depth + 1) "static new(...args) \x7b" ++
      line (depth + 2) ("return new " ++ n ++ "(...args);") ++
      line (depth + 1) "\x7d" ++ line depth "\x7d"

/-- The lines of statements. -/
def stmtsText (depth : Nat) : List Stmt → String
  | [] => ""
  | s :: ss => s.text depth ++ stmtsText depth ss

/-- The lines after a block of a choice. -/
def Otherwise.text (depth : Nat) : Otherwise → String
  | .nothing => line depth "\x7d"
  | .block body =>
    line depth "\x7d else \x7b" ++ stmtsText (depth + 1) body ++ line depth "\x7d"
  | .elseIf cond body otherwise =>
    line depth ("\x7d else if (" ++ cond.text depth ++ ") \x7b") ++ stmtsText (depth + 1) body ++
      otherwise.text depth

/-- The lines of cases. -/
def casesText (depth : Nat) : List Case → String
  | [] => ""
  | .test value body :: cases =>
    line depth ("case " ++ value.text depth ++ ": \x7b") ++ stmtsText (depth + 1) body ++
      line (depth + 1) "break;" ++ line depth "\x7d" ++ casesText depth cases
  | .default body :: cases =>
    line depth "default: \x7b" ++ stmtsText (depth + 1) body ++
      line (depth + 1) "break;" ++ line depth "\x7d" ++ casesText depth cases

/-- The parameters that set fields, with their values if not given. -/
def slotTexts (depth : Nat) : List Slot → List String
  | [] => []
  | .mk param _ initial :: slots =>
    (param ++ " = " ++ initial.text depth) :: slotTexts depth slots

/-- The lines that set fields. -/
def settersText (depth : Nat) : List Slot → String
  | [] => ""
  | .mk param member _ :: slots =>
    line depth ("this." ++ member ++ " = " ++ param ++ ";") ++ settersText depth slots

end

/-- The heading of a script. -/
def heading (version : Nat) (title : String) : String :=
  "// Generated by pinejs from Pine Script" ++
    (if version = 0 then "" else " v" ++ toString version) ++
    (if title = "" then "" else ": " ++ Text.escaped title)

end Script

/-- The text of a whole script. -/
def Script.text (s : Script) : String :=
  line 0 "\"use strict\";" ++ line 0 (heading s.version s.title) ++
    line 0 ("function " ++ s.functionName ++ "(ctx) \x7b") ++ stmtsText 1 s.body ++
    line 0 "\x7d"

end Pine
