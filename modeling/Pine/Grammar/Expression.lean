import Pine.Grammar.Rule
import Pine.Tree.Text

/-!
# The grammar of expressions

```text
expression = or ["?" expression ":" expression]
or         = and ("or" and)*             and so on down the levels of binary operators
unary      = ("not" | "-" | "+") unary | suffixed
suffixed   = primary ("(" args ")" | "<" types ">" "(" args ")" | "." name | "[" expression "]")*
primary    = NUMBER | STRING | BOOLEAN | NA | COLOR | IDENTIFIER
           | "(" expression ")" | "[" expressions "]" | switch | if
block      = NEWLINE INDENT (statement NEWLINE)* DEDENT
```

Expressions hold blocks and blocks hold expressions. The rules below are written against a record
of the two kinds of parts, `Rule.Parts`, and the grammar of programs closes the circle. Repetitions
are bounded by `Rule.Parts.fuel`; a repetition that meets the bound has no answer.
-/

namespace Pine

/-! ### Parts of trees -/

namespace Grammar

/-- Type arguments between angle brackets. -/
def angled (arguments : List String) : String := "<" ++ ", ".intercalate arguments ++ ">"

/-- Whether type arguments may follow an expression. -/
def isCallee : Expr → Bool
  | .name .. | .member .. => true
  | _ => false

/-- The levels of binary operators, the loosest first. -/
def levels : List (List BinaryOp) :=
  [[.or], [.and], [.eq, .ne], [.gt, .lt, .ge, .le], [.add, .sub], [.mul, .div, .rem]]

end Grammar

namespace Rule

open Pine.Parser Grammar

/-- The parts that the rules are written against. -/
structure Parts where
  /-- A bound on the rounds of a repetition. -/
  fuel : Nat
  /-- Expressions. -/
  expr : Rule Expr
  /-- Statements. -/
  stmt : Rule Stmt

/-! ### Types -/

/-- The rest of a dotted name. -/
def dotted : Nat → String → Rule String
  | 0, _ => throw .bound
  | n + 1, word => do
    if (← peek).kind = .dot && (← peekNext).kind = .identifier then
      let _ ← advance
      let t ← advance
      dotted n (word ++ "." ++ t.lexeme)
    else return word

mutual

/-- `"<" type ("," type)* ">"` -/
def typeArgs : Nat → Rule (List String)
  | 0 => throw .bound
  | n + 1 => do
    let _ ← expectOp "<"
    let types ← types n
    let _ ← expectOp ">"
    return types

/-- `type ("," type)*` -/
def types : Nat → Rule (List String)
  | 0 => throw .bound
  | n + 1 => do
    let t ← expect .identifier
    let name ← dotted n t.lexeme
    let name ← if (← peek).isOp "<" then do
        let inner ← typeArgs n
        pure (name ++ angled inner)
      else pure name
    if (← peek).kind = .comma then do
      let _ ← advance
      let others ← types n
      return name :: others
    else return [name]

end

/-- The type arguments of a call: what follows them must be the arguments. -/
def callTypeArgs (fuel : Nat) : Rule (List String) := do
  let types ← typeArgs fuel
  let t ← peek
  if t.kind = .lparen then return types else fail t .expectedParen

namespace Parts

variable (r : Parts)

/-! ### Lists of expressions -/

/-- One argument: an expression, or a name, `=` and an expression. -/
def arg : Rule Arg := do
  let t ← peek
  if (t.kind = .identifier || t.kind = .keyword) && (← peekNext).isOp "=" then
    let _ ← advance
    let _ ← advance
    let value ← r.expr
    return .mk t.lexeme value
  else
    let value ← r.expr
    return .mk "" value

/-- Items up to a closing bracket, separated by commas; a comma may also follow the last one. -/
def items {α : Type} (close : Token.Kind) (item : Rule α) : Nat → Rule (List α)
  | 0 => throw .bound
  | n + 1 => do
    if (← peek).kind = close then return []
    else
      let a ← item
      if (← peek).kind = .comma then
        let _ ← advance
        let others ← items close item n
        return a :: others
      else return [a]

/-- `"(" [arg ("," arg)*] ")"` -/
def args : Rule (List Arg) := do
  let _ ← expect .lparen
  let args ← items .rparen r.arg r.fuel
  let _ ← expect .rparen
  return args

/-! ### Statements on a line and blocks -/

/-- An expression, or the declaration or assignment that an operator after it makes of it. -/
def simple : Rule Stmt := do
  let start ← peek
  let e ← r.expr
  let t ← peek
  if t.isOp "=" then
    let _ ← advance
    let value ← r.expr
    match e with
    | .name _ n => return .decl start.pos 0 n [] "" "" value
    | .member .. => return .assign start.pos e .bind value
    | _ => fail start (.notAssignable e.text)
  else if [":=", "+=", "-=", "*=", "/=", "%="].any t.isOp then
    let _ ← advance
    let value ← r.expr
    match e with
    | .name .. | .member .. => return .assign start.pos e (.ofSpelling t.lexeme) value
    | _ => fail start (.notAssignable e.text)
  else return .expr start.pos e

/-- The items of a block, one to a line, up to the end of the block. -/
def lines {α : Type} (item : Rule α) : Nat → Rule (List α)
  | 0 => throw .bound
  | n + 1 => do
    match (← peek).kind with
    | .newline => do
      let _ ← advance
      lines item n
    | .dedent => do
      let _ ← advance
      return []
    | .eof => return []
    | _ => do
      let a ← item
      let others ← lines item n
      return a :: others

/-- `NEWLINE INDENT statements DEDENT` -/
def block : Rule (List Stmt) := nested do
  let _ ← expect .newline
  let _ ← expect .indent
  lines r.stmt r.fuel

/-- A block, or a statement on the same line. -/
def body : Rule (List Stmt) := do
  if (← peek).kind = .newline then r.block
  else
    let s ← r.simple
    return [s]

/-! ### Switch and if -/

/-- `[expression] "=>" (simple | block)` -/
def arm : Rule Arm := do
  let test ← if (← peek).isOp "=>" then pure .missing else r.expr
  let _ ← expectOp "=>"
  let body ← r.body
  endStatement
  return .mk test body

/-- `"switch" [expression] NEWLINE INDENT arms DEDENT` -/
def switchParts : Rule (Expr × List Arm) := do
  let _ ← expectKeyword "switch"
  let subject ← if (← peek).kind = .newline then pure .missing else r.expr
  nested do
    let _ ← expect .newline
    let _ ← expect .indent
    let arms ← lines r.arm r.fuel
    return (subject, arms)

/-- `"if" expression block ["else" (if | block)]` -/
def ifParts : Nat → Rule (Expr × List Stmt × List Stmt)
  | 0 => throw .bound
  | n + 1 => do
    let _ ← expectKeyword "if"
    let cond ← r.expr
    let yes ← r.block
    if (← peek).isKeyword "else" then
      let _ ← advance
      let t ← peek
      if t.isKeyword "if" then
        let (c, y, no) ← ifParts n
        return (cond, yes, [.ifElse t.pos c y no])
      else
        let no ← r.block
        return (cond, yes, no)
    else return (cond, yes, [])

/-! ### Expressions -/

/-- Literals, names, groups, arrays and the block forms. -/
def primary : Rule Expr := do
  let t ← peek
  match t.kind with
  | .number => do
    let _ ← advance
    return .number t.pos t.lexeme
  | .string => do
    let _ ← advance
    return .string t.pos t.lexeme
  | .boolean => do
    let _ ← advance
    return .bool t.pos (t.lexeme = "true")
  | .color => do
    let _ ← advance
    return .color t.pos t.lexeme
  | .na => do
    let _ ← advance
    -- before an argument list `na` is the function that tests for it
    if (← peek).kind = .lparen then return .name t.pos "na" else return .na t.pos
  | .identifier => do
    let _ ← advance
    return .name t.pos t.lexeme
  | .lparen => do
    let _ ← advance
    let e ← r.expr
    let _ ← expect .rparen
    return e
  | .lbracket => do
    let _ ← advance
    let elements ← items .rbracket r.expr r.fuel
    let _ ← expect .rbracket
    return .array t.pos elements
  | .keyword =>
    if t.lexeme = "switch" then do
      let (subject, arms) ← r.switchParts
      return .switch t.pos subject arms
    else if t.lexeme = "if" then do
      let (cond, yes, no) ← r.ifParts r.fuel
      return .ifElse t.pos cond yes no
    else fail t (.unexpected t.text)
  | _ => fail t (.unexpected t.text)

/-- The calls, members and offsets that follow an expression. -/
def suffixes : Nat → Expr → Rule Expr
  | 0, _ => throw .bound
  | n + 1, e => do
    let t ← peek
    match t.kind with
    | .lparen => do
      let args ← r.args
      suffixes n (.call e.pos 0 e args [])
    | .dot => do
      let _ ← advance
      let name ← peek
      if name.kind = .identifier || name.kind = .keyword then
        let _ ← advance
        suffixes n (.member e.pos e name.lexeme)
      else fail name (.expectedMember name.text)
    | .lbracket => do
      let _ ← advance
      let offset ← r.expr
      let _ ← expect .rbracket
      suffixes n (.index e.pos e offset)
    | _ =>
      if t.isOp "<" && isCallee e then do
        match ← attempt (callTypeArgs r.fuel) with
        | none => return e
        | some types =>
          let args ← r.args
          suffixes n (.call e.pos 0 e args types)
      else return e

/-- A primary expression with what follows it. -/
def suffixed : Rule Expr := do
  let e ← r.primary
  r.suffixes r.fuel e

/-- Unary operators in front of a suffixed expression. -/
def unary : Nat → Rule Expr
  | 0 => throw .bound
  | n + 1 => do
    let t ← peek
    if ["not", "-", "+"].any t.isOp then
      nested do
        let _ ← advance
        let operand ← unary n
        return .unary t.pos (.ofSpelling t.lexeme) operand
    else r.suffixed

/-- Operators of one level after their left operand; they associate to the left. -/
def chain (next : Rule Expr) (ops : List BinaryOp) : Nat → Expr → Rule Expr
  | 0, _ => throw .bound
  | n + 1, left => do
    let t ← peek
    if ops.any fun op => t.isOp op.spelling then
      let _ ← advance
      let right ← next
      chain next ops n (.binary t.pos (.ofSpelling t.lexeme) left right)
    else return left

/-- Expressions with binary operators of the given levels. -/
def binary : List (List BinaryOp) → Rule Expr
  | [] => r.unary (r.fuel + 1)
  | ops :: tighter => do
    let left ← binary tighter
    chain (binary tighter) ops r.fuel left

/-- An expression with an optional choice between two others. -/
def ternary : Rule Expr := do
  let cond ← r.binary levels
  let t ← peek
  if t.isOp "?" then
    let _ ← advance
    let yes ← r.expr
    let _ ← expect .colon
    let no ← r.expr
    return .ternary t.pos cond yes no
  else return cond

/-- An expression, one level deeper. -/
def expression : Rule Expr := nested r.ternary

end Parts

end Rule

end Pine
