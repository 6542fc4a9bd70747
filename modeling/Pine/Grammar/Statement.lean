import Pine.Grammar.Expression
import Pine.Tree.Literal

/-!
# The grammar of statements

```text
statement  = if | "while" expression block | for | switch | "return" [expression]
           | "break" | "continue" | varDecl | typeDecl | import | "export" statement
           | ["method"] funcDecl | simple
varDecl    = ["var" | "varip"] [type] IDENTIFIER "=" expression
           | "[" IDENTIFIER ("," IDENTIFIER)* "]" "=" expression
funcDecl   = IDENTIFIER "(" params ")" "=>" (simple | block)
simple     = expression [("=" | ":=" | "+=" | "-=" | "*=" | "/=" | "%=") expression]
```

A statement that starts with a name may be a function, a typed declaration or a simple statement;
the heads of the first two are tried in this order, and the cursor goes back when they do not fit.
-/

namespace Pine

/-! ### Parts of trees -/

namespace Grammar

/-- A name with the words of its type. -/
structure TypedName where
  /-- The words in front of the name. -/
  words : List String
  /-- The name. -/
  name : String

/-- The words of the type, joined by blanks. -/
def TypedName.type (t : TypedName) : String := " ".intercalate t.words

/-- The part of a declaration before its value. -/
structure DeclHead where
  /-- The position of the declaration. -/
  pos : Pos
  /-- The qualifier, possibly empty. -/
  qualifier : String
  /-- The type, possibly empty. -/
  type : String
  /-- The name, empty for a tuple. -/
  name : String
  /-- The names of a tuple. -/
  names : List String

/-- The signature of a function, up to the arrow. -/
structure FuncHead where
  /-- The position of the function. -/
  pos : Pos
  /-- The name. -/
  name : String
  /-- The parameters. -/
  params : List Param

/-- A statement that can be exported. -/
def isDeclaration : Stmt → Bool
  | .func .. | .typeDecl .. | .decl .. => true
  | _ => false

/-! ### Import paths -/

/-- Whether a path segment is a version: an optional sign and digits whose value fits into 64
bits. -/
def isVersion (segment : List Char) : Bool :=
  let (digits, bound) :=
    match segment with
    | '+' :: cs => (cs, Nat.pow 2 63)
    | '-' :: cs => (cs, Nat.pow 2 63 + 1)
    | cs => (cs, Nat.pow 2 63)
  !digits.isEmpty && digits.all Char.isDigit &&
    digits.foldl (fun n c => 10 * n + (c.toNat - '0'.toNat)) 0 < bound

/-- The segments of a path, the last one first. -/
def segments (path : List Char) : List (List Char) :=
  path.foldl (fun acc c =>
    match c, acc with
    | '/', _ => [] :: acc
    | c, seg :: rest => (seg ++ [c]) :: rest
    | c, [] => [[c]]) [[]]

/-- The local name of a library that is imported without one: the last segment of its path that is
not a version. -/
def defaultLocalName (path : String) : String :=
  match (segments path.toList).find? fun s => !s.isEmpty && !isVersion s with
  | some s => String.ofList s
  | none => "lib"

/-! ### Counting loops -/

/-- Whether an expression is a number behind one minus sign. -/
def isNegativeNumber : Expr → Bool
  | .unary _ .neg (.number _ _) => true
  | _ => false

/-- Whether both bounds are literal and the first is greater. -/
def literalGreater (a b : Expr) : Bool :=
  match a.literal?, b.literal? with
  | some x, some y => y.lt x
  | _, _ => false

/-- The counting loop from `first` to `last`, by `step` if there is one. Without a step, literal
bounds fix the direction, and other bounds leave it open. -/
def countingLoop (pos namePos : Pos) (counter : String) (first last step : Expr)
    (body : List Stmt) : Stmt :=
  let noStep := step.isMissing
  let down := isNegativeNumber step || (noStep && literalGreater first last)
  let eitherWay := noStep && !(first.literal?.isSome && last.literal?.isSome)
  let one : Expr := .number namePos "1"
  let target : Expr := .name namePos counter
  let update : Stmt :=
    if !noStep then .assign namePos target .add step
    else if down then .assign namePos target .sub one
    else .assign namePos target .add one
  .forCount pos counter (.decl namePos 0 counter [] "" "" first)
    (.binary namePos (if down then .ge else .le) target last) update body eitherWay

end Grammar

namespace Rule

open Pine.Parser Grammar

/-! ### Typed names -/

/-- A word of a type or a name: an identifier with an optional path, type arguments and the mark of
an array. -/
def typeWord (fuel : Nat) : Rule String := do
  let t ← expect .identifier
  let word ← dotted fuel t.lexeme
  let word ← if (← peek).isOp "<" then do
      let inner ← typeArgs fuel
      pure (word ++ angled inner)
    else pure word
  if (← peek).kind = .lbracket && (← peekNext).kind = .rbracket then
    let _ ← advance
    let _ ← advance
    return word ++ "[]"
  else return word

/-- The words up to the last one, and the last one. -/
def typeWords (fuel : Nat) : Nat → Rule TypedName
  | 0 => throw .bound
  | n + 1 => do
    let word ← typeWord fuel
    if (← peek).kind = .identifier then
      let others ← typeWords fuel n
      return { others with words := word :: others.words }
    else return ⟨[], word⟩

/-- A run of words that ends in a plain name. -/
def typedName (fuel : Nat) : Rule TypedName := do
  let t ← typeWords fuel fuel
  if t.name.toList.any fun c => c = '.' || c = '<' || c = '[' then
    fail (← peek) (.expectedName t.name)
  else return t

/-! ### Heads of declarations -/

/-- `[type] name "="`, where the type may have to be there. -/
def declHead (fuel : Nat) (typed : Bool) : Rule DeclHead := do
  let start ← peek
  let t ← typedName fuel
  if typed && t.words.isEmpty then fail start .expectedTyped
  else
    let _ ← expectOp "="
    return ⟨start.pos, "", t.type, t.name, []⟩

/-- `IDENTIFIER ("," IDENTIFIER)*` -/
def names : Nat → Rule (List String)
  | 0 => throw .bound
  | n + 1 => do
    let t ← expect .identifier
    if (← peek).kind = .comma then
      let _ ← advance
      let others ← names n
      return t.lexeme :: others
    else return [t.lexeme]

/-- `"[" names "]" "="` -/
def tupleHead (fuel : Nat) : Rule DeclHead := do
  let start ← expect .lbracket
  let names ← names fuel
  let _ ← expect .rbracket
  let _ ← expectOp "="
  return ⟨start.pos, "", "", "", names⟩

/-! ### Import paths -/

/-- The tokens of a bare library path. -/
def importPath : Nat → Rule String
  | 0 => throw .bound
  | n + 1 => do
    if (← atLineEnd) || (← peek).isKeyword "as" then return ""
    else
      let t ← advance
      if t.kind = .identifier || t.kind = .number || t.isOp "/" then
        let others ← importPath n
        return t.lexeme ++ others
      else fail t (.inPath t.text)

namespace Parts

variable (r : Parts)

/-! ### Declarations -/

/-- The value of a declaration. -/
def declValue (head : DeclHead) : Rule Stmt := do
  let value ← r.expr
  endStatement
  return .decl head.pos 0 head.name head.names head.qualifier head.type value

/-- A parameter with an optional default, which is read and dropped. -/
def param : Rule Param := do
  let t ← typedName r.fuel
  if (← peek).isOp "=" then
    let _ ← advance
    let _ ← r.expr
    return ⟨t.name, t.type⟩
  else return ⟨t.name, t.type⟩

/-- `IDENTIFIER "(" params ")" "=>"` -/
def funcHead : Rule FuncHead := do
  let t ← expect .identifier
  let _ ← expect .lparen
  let params ← items .rparen r.param r.fuel
  let _ ← expect .rparen
  let _ ← expectOp "=>"
  return ⟨t.pos, t.lexeme, params⟩

/-- The body of a function. -/
def funcBody (head : FuncHead) (isMethod : Bool) : Rule Stmt := do
  let body ← r.body
  endStatement
  return .func head.pos head.name head.params body isMethod

/-- `["varip"] [type] name ["=" expression]` -/
def field : Rule Field := do
  if (← peek).isKeyword "varip" then
    let _ ← advance
  let t ← typedName r.fuel
  let initial ← if (← peek).isOp "=" then do
      let _ ← advance
      r.expr
    else pure .missing
  endStatement
  return .mk t.name t.type initial

/-- `"type" IDENTIFIER NEWLINE INDENT fields DEDENT` -/
def typeDecl : Rule Stmt := do
  let start ← advance
  let name ← expect .identifier
  let _ ← expect .newline
  let _ ← expect .indent
  let fields ← lines r.field r.fuel
  return .typeDecl start.pos name.lexeme fields

/-- `"import" path ["as" IDENTIFIER]`, where the path is a string or bare words and slashes. -/
def importLib : Rule Stmt := do
  let start ← advance
  let t ← peek
  let path ← if t.kind = .string then do
      let _ ← advance
      pure t.lexeme
    else importPath r.fuel
  if path = "" then fail (← peek) .expectedPath
  else if (← peek).isKeyword "as" then
    let _ ← advance
    let localName ← expect .identifier
    endStatement
    return .importLib start.pos path localName.lexeme
  else
    endStatement
    return .importLib start.pos path (defaultLocalName path)

/-! ### Loops -/

/-- `"in" expression block` -/
def forIn (pos : Pos) (index item : String) : Rule Stmt := do
  let _ ← expectKeyword "in"
  let collection ← r.expr
  let body ← r.block
  endStatement
  return .forIn pos index item collection body

/-- The three forms of `for`. -/
def forLoop : Rule Stmt := do
  let start ← advance
  if (← peek).kind = .lbracket then
    let _ ← advance
    let index ← expect .identifier
    let _ ← expect .comma
    let item ← expect .identifier
    let _ ← expect .rbracket
    r.forIn start.pos index.lexeme item.lexeme
  else
    let name ← expect .identifier
    if (← peek).isKeyword "in" then r.forIn start.pos "" name.lexeme
    else
      let _ ← expectOp "="
      let first ← r.expr
      let _ ← expectKeyword "to"
      let last ← r.expr
      let step ← if (← peek).isKeyword "by" then do
          let _ ← advance
          r.expr
        else pure .missing
      let body ← r.block
      endStatement
      return countingLoop start.pos name.pos name.lexeme first last step body

/-! ### Statements -/

/-- A statement that starts with a keyword. -/
def keywordStatement : Rule Stmt := do
  let t ← peek
  match t.lexeme with
  | "if" => do
    let (cond, yes, no) ← r.ifParts r.fuel
    endStatement
    return .ifElse t.pos cond yes no
  | "while" => do
    let _ ← advance
    let cond ← r.expr
    let body ← r.block
    endStatement
    return .whileLoop t.pos cond body
  | "for" => r.forLoop
  | "switch" => do
    let (subject, arms) ← r.switchParts
    endStatement
    return .switch t.pos subject arms
  | "return" => do
    let _ ← advance
    let value ← if ← atLineEnd then pure .missing else r.expr
    endStatement
    return .ret t.pos value
  | "break" => do
    let _ ← advance
    endStatement
    return .brk t.pos
  | "continue" => do
    let _ ← advance
    endStatement
    return .cont t.pos
  | "var" | "varip" => do
    let _ ← advance
    let head ← declHead r.fuel false
    r.declValue { head with qualifier := t.lexeme, pos := t.pos }
  | "type" => r.typeDecl
  | "import" => r.importLib
  | "export" => do
    let _ ← advance
    let decl ← r.stmt
    if isDeclaration decl then return .exported t.pos decl else fail t .notExportable
  | "method" => do
    let _ ← advance
    let head ← r.funcHead
    r.funcBody { head with pos := t.pos } true
  | _ => fail t (.keyword t.lexeme)

/-- A simple statement with the end of its line. -/
def simpleStatement : Rule Stmt := do
  let s ← r.simple
  endStatement
  return s

/-- A statement. -/
def statement : Rule Stmt := do
  match (← peek).kind with
  | .keyword => r.keywordStatement
  | .lbracket => do
    match ← attempt (tupleHead r.fuel) with
    | some head => r.declValue head
    | none => r.simpleStatement
  | .identifier => do
    match ← attempt r.funcHead with
    | some head => r.funcBody head false
    | none =>
      match ← attempt (declHead r.fuel true) with
      | some head => r.declValue head
      | none => r.simpleStatement
  | _ => r.simpleStatement

end Parts

end Rule

end Pine
