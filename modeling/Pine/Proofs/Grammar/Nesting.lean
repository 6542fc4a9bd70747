import Pine.Grammar.Program

/-!
# Rules that take the nesting as an argument

A rule that leaves the depth as it finds it can be read as a parser that takes the depth and the
greatest depth allowed as an argument and knows nothing of counting. Below stand the rules of
`Pine.Rule` in this form, each under the name it has there, for the proofs about what they read.
Where there are more rounds than tokens the bounds play no role, and the two forms agree:
`Program.parse_eq_program` says so for programs.
-/

namespace Pine

namespace Parser

/-- The result of a parser, or nothing and no movement if it fails. -/
def attempt {α : Type} (p : Parser α) : Parser (Option α) := fun c =>
  match p c with
  | .ok a c' => .ok (some a) c'
  | .error _ _ => .ok none c

end Parser

/-- How deeply the place is nested. -/
structure Nesting where
  /-- The number of expressions, blocks and operators around the place. -/
  depth : Nat
  /-- The greatest depth allowed; zero allows any. -/
  limit : Nat

namespace Nesting

/-- One level deeper. -/
def enter (d : Nesting) : Parser Nesting := do
  if 0 < d.limit ∧ d.limit < d.depth + 1 then Parser.fail (← Parser.peek) (.tooDeep d.limit)
  else return { d with depth := d.depth + 1 }

end Nesting

namespace Grammar

open Pine.Parser

/-- The parts that the rules are written against. -/
structure Rules where
  /-- A bound on the rounds of a repetition. -/
  fuel : Nat
  /-- Expressions. -/
  expr : Nesting → Parser Expr
  /-- Statements. -/
  stmt : Nesting → Parser Stmt

/-! ### Types -/

def dotted : Nat → String → Parser String
  | 0, word => return word
  | n + 1, word => do
    if (← peek).kind = .dot && (← peekNext).kind = .identifier then
      let _ ← advance
      let t ← advance
      dotted n (word ++ "." ++ t.lexeme)
    else return word

mutual

def typeArgs : Nat → Parser (List String)
  | 0 => unexpected
  | n + 1 => do
    let _ ← expectOp "<"
    let types ← types n
    let _ ← expectOp ">"
    return types

def types : Nat → Parser (List String)
  | 0 => unexpected
  | n + 1 => do
    let t ← expect .identifier
    let name ← dotted n t.lexeme
    let name ← if (← peek).isOp "<" then do
        let inner ← typeArgs n
        pure (name ++ angled inner)
      else pure name
    if (← peek).kind = .comma then do
      let _ ← advance
      let others ← types n
      return name :: others
    else return [name]

end

def callTypeArgs (fuel : Nat) : Parser (List String) := do
  let types ← typeArgs fuel
  let t ← peek
  if t.kind = .lparen then return types else fail t .expectedParen

/-! ### Typed names and heads -/

def typeWord (fuel : Nat) : Parser String := do
  let t ← expect .identifier
  let word ← dotted fuel t.lexeme
  let word ← if (← peek).isOp "<" then do
      let inner ← typeArgs fuel
      pure (word ++ angled inner)
    else pure word
  if (← peek).kind = .lbracket && (← peekNext).kind = .rbracket then
    let _ ← advance
    let _ ← advance
    return word ++ "[]"
  else return word

def typeWords (fuel : Nat) : Nat → Parser TypedName
  | 0 => unexpected
  | n + 1 => do
    let word ← typeWord fuel
    if (← peek).kind = .identifier then
      let others ← typeWords fuel n
      return { others with words := word :: others.words }
    else return ⟨[], word⟩

def typedName (fuel : Nat) : Parser TypedName := do
  let t ← typeWords fuel fuel
  if t.name.toList.any fun c => c = '.' || c = '<' || c = '[' then
    fail (← peek) (.expectedName t.name)
  else return t

def declHead (fuel : Nat) (typed : Bool) : Parser DeclHead := do
  let start ← peek
  let t ← typedName fuel
  if typed && t.words.isEmpty then fail start .expectedTyped
  else
    let _ ← expectOp "="
    return ⟨start.pos, "", t.type, t.name, []⟩

def names : Nat → Parser (List String)
  | 0 => unexpected
  | n + 1 => do
    let t ← expect .identifier
    if (← peek).kind = .comma then
      let _ ← advance
      let others ← names n
      return t.lexeme :: others
    else return [t.lexeme]

def tupleHead (fuel : Nat) : Parser DeclHead := do
  let start ← expect .lbracket
  let names ← names fuel
  let _ ← expect .rbracket
  let _ ← expectOp "="
  return ⟨start.pos, "", "", "", names⟩

def importPath : Nat → Parser String
  | 0 => return ""
  | n + 1 => do
    if (← atLineEnd) || (← peek).isKeyword "as" then return ""
    else
      let t ← advance
      if t.kind = .identifier || t.kind = .number || t.isOp "/" then
        let others ← importPath n
        return t.lexeme ++ others
      else fail t (.inPath t.text)

namespace Rules

variable (r : Rules)

/-! ### Lists of expressions -/

def arg (d : Nesting) : Parser Arg := do
  let t ← peek
  if (t.kind = .identifier || t.kind = .keyword) && (← peekNext).isOp "=" then
    let _ ← advance
    let _ ← advance
    let value ← r.expr d
    return .mk t.lexeme value
  else
    let value ← r.expr d
    return .mk "" value

def items {α : Type} (close : Token.Kind) (item : Parser α) : Nat → Parser (List α)
  | 0 => return []
  | n + 1 => do
    if (← peek).kind = close then return []
    else
      let a ← item
      if (← peek).kind = .comma then
        let _ ← advance
        let others ← items close item n
        return a :: others
      else return [a]

def args (d : Nesting) : Parser (List Arg) := do
  let _ ← expect .lparen
  let args ← items .rparen (r.arg d) r.fuel
  let _ ← expect .rparen
  return args

/-! ### Statements on a line and blocks -/

def simple (d : Nesting) : Parser Stmt := do
  let start ← peek
  let e ← r.expr d
  let t ← peek
  if t.isOp "=" then
    let _ ← advance
    let value ← r.expr d
    match e with
    | .name _ n => return .decl start.pos 0 n [] "" "" value
    | .member .. => return .assign start.pos e .bind value
    | _ => fail start (.notAssignable e.text)
  else if [":=", "+=", "-=", "*=", "/=", "%="].any t.isOp then
    let _ ← advance
    let value ← r.expr d
    match e with
    | .name .. | .member .. => return .assign start.pos e (.ofSpelling t.lexeme) value
    | _ => fail start (.notAssignable e.text)
  else return .expr start.pos e

def lines {α : Type} (item : Parser α) : Nat → Parser (List α)
  | 0 => return []
  | n + 1 => do
    match (← peek).kind with
    | .newline => do
      let _ ← advance
      lines item n
    | .dedent => do
      let _ ← advance
      return []
    | .eof => return []
    | _ => do
      let a ← item
      let others ← lines item n
      return a :: others

def block (d : Nesting) : Parser (List Stmt) := do
  let d ← d.enter
  let _ ← expect .newline
  let _ ← expect .indent
  lines (r.stmt d) r.fuel

def body (d : Nesting) : Parser (List Stmt) := do
  if (← peek).kind = .newline then r.block d
  else
    let s ← r.simple d
    return [s]

/-! ### Switch and if -/

def arm (d : Nesting) : Parser Arm := do
  let test ← if (← peek).isOp "=>" then pure .missing else r.expr d
  let _ ← expectOp "=>"
  let body ← r.body d
  endStatement
  return .mk test body

def switchParts (d : Nesting) : Parser (Expr × List Arm) := do
  let _ ← expectKeyword "switch"
  let subject ← if (← peek).kind = .newline then pure .missing else r.expr d
  let d ← d.enter
  let _ ← expect .newline
  let _ ← expect .indent
  let arms ← lines (r.arm d) r.fuel
  return (subject, arms)

def ifParts (d : Nesting) : Nat → Parser (Expr × List Stmt × List Stmt)
  | 0 => unexpected
  | n + 1 => do
    let _ ← expectKeyword "if"
    let cond ← r.expr d
    let yes ← r.block d
    if (← peek).isKeyword "else" then
      let _ ← advance
      let t ← peek
      if t.isKeyword "if" then
        let (c, y, no) ← ifParts d n
        return (cond, yes, [.ifElse t.pos c y no])
      else
        let no ← r.block d
        return (cond, yes, no)
    else return (cond, yes, [])

/-! ### Expressions -/

def primary (d : Nesting) : Parser Expr := do
  let t ← peek
  match t.kind with
  | .number => do
    let _ ← advance
    return .number t.pos t.lexeme
  | .string => do
    let _ ← advance
    return .string t.pos t.lexeme
  | .boolean => do
    let _ ← advance
    return .bool t.pos (t.lexeme = "true")
  | .color => do
    let _ ← advance
    return .color t.pos t.lexeme
  | .na => do
    let _ ← advance
    if (← peek).kind = .lparen then return .name t.pos "na" else return .na t.pos
  | .identifier => do
    let _ ← advance
    return .name t.pos t.lexeme
  | .lparen => do
    let _ ← advance
    let e ← r.expr d
    let _ ← expect .rparen
    return e
  | .lbracket => do
    let _ ← advance
    let elements ← items .rbracket (r.expr d) r.fuel
    let _ ← expect .rbracket
    return .array t.pos elements
  | .keyword =>
    if t.lexeme = "switch" then do
      let (subject, arms) ← r.switchParts d
      return .switch t.pos subject arms
    else if t.lexeme = "if" then do
      let (cond, yes, no) ← r.ifParts d r.fuel
      return .ifElse t.pos cond yes no
    else fail t (.unexpected t.text)
  | _ => fail t (.unexpected t.text)

def suffixes (d : Nesting) : Nat → Expr → Parser Expr
  | 0, e => return e
  | n + 1, e => do
    let t ← peek
    match t.kind with
    | .lparen => do
      let args ← r.args d
      suffixes d n (.call e.pos 0 e args [])
    | .dot => do
      let _ ← advance
      let name ← peek
      if name.kind = .identifier || name.kind = .keyword then
        let _ ← advance
        suffixes d n (.member e.pos e name.lexeme)
      else fail name (.expectedMember name.text)
    | .lbracket => do
      let _ ← advance
      let offset ← r.expr d
      let _ ← expect .rbracket
      suffixes d n (.index e.pos e offset)
    | _ =>
      if t.isOp "<" && isCallee e then do
        match ← attempt (callTypeArgs r.fuel) with
        | none => return e
        | some types =>
          let args ← r.args d
          suffixes d n (.call e.pos 0 e args types)
      else return e

def suffixed (d : Nesting) : Parser Expr := do
  let e ← r.primary d
  r.suffixes d r.fuel e

def unary : Nat → Nesting → Parser Expr
  | 0, _ => unexpected
  | n + 1, d => do
    let t ← peek
    if ["not", "-", "+"].any t.isOp then
      let d ← d.enter
      let _ ← advance
      let operand ← unary n d
      return .unary t.pos (.ofSpelling t.lexeme) operand
    else r.suffixed d

def chain (next : Parser Expr) (ops : List BinaryOp) : Nat → Expr → Parser Expr
  | 0, left => return left
  | n + 1, left => do
    let t ← peek
    if ops.any fun op => t.isOp op.spelling then
      let _ ← advance
      let right ← next
      chain next ops n (.binary t.pos (.ofSpelling t.lexeme) left right)
    else return left

def binary (d : Nesting) : List (List BinaryOp) → Parser Expr
  | [] => r.unary r.fuel d
  | ops :: tighter => do
    let left ← binary d tighter
    chain (binary d tighter) ops r.fuel left

def ternary (d : Nesting) : Parser Expr := do
  let cond ← r.binary d levels
  let t ← peek
  if t.isOp "?" then
    let _ ← advance
    let yes ← r.expr d
    let _ ← expect .colon
    let no ← r.expr d
    return .ternary t.pos cond yes no
  else return cond

def expression (d : Nesting) : Parser Expr := do
  let d ← d.enter
  r.ternary d

/-! ### Declarations -/

def declValue (d : Nesting) (head : DeclHead) : Parser Stmt := do
  let value ← r.expr d
  endStatement
  return .decl head.pos 0 head.name head.names head.qualifier head.type value

def param (d : Nesting) : Parser Param := do
  let t ← typedName r.fuel
  if (← peek).isOp "=" then
    let _ ← advance
    let _ ← r.expr d
    return ⟨t.name, t.type⟩
  else return ⟨t.name, t.type⟩

def funcHead (d : Nesting) : Parser FuncHead := do
  let t ← expect .identifier
  let _ ← expect .lparen
  let params ← items .rparen (r.param d) r.fuel
  let _ ← expect .rparen
  let _ ← expectOp "=>"
  return ⟨t.pos, t.lexeme, params⟩

def funcBody (d : Nesting) (head : FuncHead) (isMethod : Bool) : Parser Stmt := do
  let body ← r.body d
  endStatement
  return .func head.pos head.name head.params body isMethod

def field (d : Nesting) : Parser Field := do
  if (← peek).isKeyword "varip" then
    let _ ← advance
  let t ← typedName r.fuel
  let initial ← if (← peek).isOp "=" then do
      let _ ← advance
      r.expr d
    else pure .missing
  endStatement
  return .mk t.name t.type initial

def typeDecl (d : Nesting) : Parser Stmt := do
  let start ← advance
  let name ← expect .identifier
  let _ ← expect .newline
  let _ ← expect .indent
  let fields ← lines (r.field d) r.fuel
  return .typeDecl start.pos name.lexeme fields

def importLib : Parser Stmt := do
  let start ← advance
  let t ← peek
  let path ← if t.kind = .string then do
      let _ ← advance
      pure t.lexeme
    else importPath r.fuel
  if path = "" then fail (← peek) .expectedPath
  else if (← peek).isKeyword "as" then
    let _ ← advance
    let localName ← expect .identifier
    endStatement
    return .importLib start.pos path localName.lexeme
  else
    endStatement
    return .importLib start.pos path (defaultLocalName path)

/-! ### Loops -/

def forIn (d : Nesting) (pos : Pos) (index item : String) : Parser Stmt := do
  let _ ← expectKeyword "in"
  let collection ← r.expr d
  let body ← r.block d
  endStatement
  return .forIn pos index item collection body

def forLoop (d : Nesting) : Parser Stmt := do
  let start ← advance
  if (← peek).kind = .lbracket then
    let _ ← advance
    let index ← expect .identifier
    let _ ← expect .comma
    let item ← expect .identifier
    let _ ← expect .rbracket
    r.forIn d start.pos index.lexeme item.lexeme
  else
    let name ← expect .identifier
    if (← peek).isKeyword "in" then r.forIn d start.pos "" name.lexeme
    else
      let _ ← expectOp "="
      let first ← r.expr d
      let _ ← expectKeyword "to"
      let last ← r.expr d
      let step ← if (← peek).isKeyword "by" then do
          let _ ← advance
          r.expr d
        else pure .missing
      let body ← r.block d
      endStatement
      return countingLoop start.pos name.pos name.lexeme first last step body

/-! ### Statements -/

def keywordStatement (d : Nesting) : Parser Stmt := do
  let t ← peek
  match t.lexeme with
  | "if" => do
    let (cond, yes, no) ← r.ifParts d r.fuel
    endStatement
    return .ifElse t.pos cond yes no
  | "while" => do
    let _ ← advance
    let cond ← r.expr d
    let body ← r.block d
    endStatement
    return .whileLoop t.pos cond body
  | "for" => r.forLoop d
  | "switch" => do
    let (subject, arms) ← r.switchParts d
    endStatement
    return .switch t.pos subject arms
  | "return" => do
    let _ ← advance
    let value ← if ← atLineEnd then pure .missing else r.expr d
    endStatement
    return .ret t.pos value
  | "break" => do
    let _ ← advance
    endStatement
    return .brk t.pos
  | "continue" => do
    let _ ← advance
    endStatement
    return .cont t.pos
  | "var" | "varip" => do
    let _ ← advance
    let head ← declHead r.fuel false
    r.declValue d { head with qualifier := t.lexeme, pos := t.pos }
  | "type" => r.typeDecl d
  | "import" => r.importLib
  | "export" => do
    let _ ← advance
    let decl ← r.stmt d
    if isDeclaration decl then return .exported t.pos decl else fail t .notExportable
  | "method" => do
    let _ ← advance
    let head ← r.funcHead d
    r.funcBody d { head with pos := t.pos } true
  | _ => fail t (.keyword t.lexeme)

def simpleStatement (d : Nesting) : Parser Stmt := do
  let s ← r.simple d
  endStatement
  return s

def statement (d : Nesting) : Parser Stmt := do
  match (← peek).kind with
  | .keyword => r.keywordStatement d
  | .lbracket => do
    match ← attempt (tupleHead r.fuel) with
    | some head => r.declValue d head
    | none => r.simpleStatement d
  | .identifier => do
    match ← attempt (r.funcHead d) with
    | some head => r.funcBody d head false
    | none =>
      match ← attempt (declHead r.fuel true) with
      | some head => r.declValue d head
      | none => r.simpleStatement d
  | _ => r.simpleStatement d

/-- A statement that starts with a name but with no head of a function. -/
def namedStatement (d : Nesting) : Parser Stmt := do
  match ← attempt (declHead r.fuel true) with
  | some head => r.declValue d head
  | none => r.simpleStatement d

/-- A statement that starts with a name. -/
def identifierStatement (d : Nesting) : Parser Stmt := do
  match ← attempt (r.funcHead d) with
  | some head => r.funcBody d head false
  | none => r.namedStatement d

end Rules

/-! ### Programs -/

mutual

def exprAt : Nat → Nesting → Parser Expr
  | 0, _ => unexpected
  | n + 1, d => fun c => Rules.expression ⟨n, exprAt n, stmtAt n⟩ d c

def stmtAt : Nat → Nesting → Parser Stmt
  | 0, _ => unexpected
  | n + 1, d => fun c => Rules.statement ⟨n, exprAt n, stmtAt n⟩ d c

end

/-- The rules of expressions and statements, closed, with a bound. -/
def rulesAt (n : Nat) : Rules := ⟨n, exprAt n, stmtAt n⟩

def program (stmt : Parser Stmt) : Nat → Nat → Cursor → List Stmt × List ParseError
  | 0, _, _ => ([], [])
  | n + 1, errors, c =>
    match c.peek.kind with
    | .eof => ([], [])
    | .newline | .indent | .dedent => program stmt n errors c.advance
    | _ =>
      match stmt c with
      | .ok s c =>
        let (stmts, es) := program stmt n errors c
        (s :: stmts, es)
      | .error e c =>
        if maxErrors ≤ errors + 1 then ([], [e])
        else
          let (stmts, es) := program stmt n (errors + 1) (synchronize c)
          (stmts, e :: es)

end Grammar

end Pine
