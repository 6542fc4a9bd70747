import Pine.Lowering.Call
import Pine.Script.Number
import Pine.Tree.Walk

/-!
# Lowering of trees

Expressions become expressions of a script and statements become lists of statements. An operator
expression is parenthesised unless the place around it delimits it. The last statement of a
function or of a block with a value returns that value, through the branches of `if` and `switch`.
-/

namespace Pine.Lowering

open Lower (inScope define)

/-! ### Shapes of the source -/

/-- A walk that stays out of nested loops, functions and blocks with a value. -/
def outsideLoops : Node → Descent
  | .stmt (.whileLoop ..) | .stmt (.forCount ..) | .stmt (.forIn ..) | .stmt (.func ..)
  | .expr (.switch ..) | .expr (.ifElse ..) => .stop
  | _ => .parts

/-- Whether a node leaves or continues a loop. -/
def isJump : Node → Bool
  | .stmt (.brk _) | .stmt (.cont _) => true
  | _ => false

/-- Whether the arms of a switch leave or continue a loop around it. -/
def hasLoopJump (arms : List Arm) : Bool :=
  arms.any fun a => (walkStmts outsideLoops a.body).any isJump

/-- Whether a switch has a default arm. -/
def hasDefault (arms : List Arm) : Bool := arms.any (·.test.isMissing)

/-- Whether a chain of choices ends in a branch for all other cases. -/
def endsInElse : List Stmt → Bool
  | [] => false
  | [.ifElse _ _ _ no] => endsInElse no
  | _ => true

/-! ### Shapes of the script -/

/-- An operator expression, parenthesised unless it is delimited. -/
def wrap (bare : Bool) (e : Script.Expr) : Script.Expr := if bare then e else .paren e

/-- The branches after the first one of a chain of choices. -/
def otherwise (last : Option (List Script.Stmt)) :
    List (Script.Expr × List Script.Stmt) → Script.Otherwise
  | [] => last.elim .nothing .block
  | (cond, body) :: rest => .elseIf cond body (otherwise last rest)

/-- A chain of choices with a branch for all other cases. -/
def chain (branches : List (Script.Expr × List Script.Stmt)) (last : Option (List Script.Stmt)) :
    List Script.Stmt :=
  match branches, last with
  | [], none => []
  | [], some body => [.block body]
  | (cond, body) :: rest, last => [.ifElse cond body (otherwise last rest)]

/-- A block with a value; a block that may end without one returns a value that is not a number. -/
def valueBlock (total : Bool) (body : List Script.Stmt) : Script.Expr :=
  .block (body ++ if total then [] else [.ret .nan])

/-- The declaration of names that take apart an array; names that are bound already are assigned
to. -/
def tupleStmts (names : List String) (existed : List Bool) (value : Script.Expr) :
    List Script.Stmt :=
  let targets := names.map Script.safeName
  let fresh := ((targets.zip existed).filter (!·.2)).map Prod.fst
  if fresh.length < targets.length then
    (if fresh.isEmpty then [] else [.bindAll fresh]) ++ [.assignTuple targets value]
  else [.bindTuple targets value]

/-- The value that a declaration leaves behind. -/
def declaredValue (name : String) (names : List String) : Script.Expr :=
  if names.isEmpty then .name (Script.safeName name)
  else .array (names.map fun n => .name (Script.safeName n))

/-! ### Declarations -/

/-- A plain declaration of one name; a name that is bound in the same scope is assigned to. -/
def plainDecl (env : Context) (name : String) (value : Script.Expr) : Lower (List Script.Stmt) := do
  if ← define name .plain then
    return .assign (.name (Script.safeName name)) .set value :: (← Lower.afterAssign name)
  else
    return .bind (Script.safeName name) value :: (← Lower.afterDeclare env name)

/-- A persistent declaration of one name: the variable takes the content of its cell, or the
initial value if the cell is empty, and the cell takes the variable. -/
def persistentDecl (env : Context) (pos : Pos) (key : Nat) (name : String) (value : Script.Expr) :
    Lower (List Script.Stmt) := do
  let safe := Script.safeName name
  if ← define name .persistent then
    return .assign (.name safe) .set value :: (← Lower.afterAssign name)
  else
    match env.cells.lookup key with
    | none => Lower.fail pos (.cell name)
    | some cell =>
      Lower.updateSymbol name fun s => { s with cell := some cell }
      return .restore safe cell value :: .store cell safe :: (← Lower.afterDeclare env name)

/-- What follows a declaration of several names. -/
def afterTuple (env : Context) : List (String × Bool) → Lower (List Script.Stmt)
  | [] => return []
  | (name, existed) :: rest => do
    let first ← if existed then Lower.afterAssign name else Lower.afterDeclare env name
    return first ++ (← afterTuple env rest)

/-- A declaration of several names. -/
def tupleDecl (env : Context) (names : List String) (value : Script.Expr) :
    Lower (List Script.Stmt) := do
  let existed ← Lower.defineAll .plain names
  return tupleStmts names existed value ++ (← afterTuple env (names.zip existed))

/-- A declaration. -/
def declStmts (env : Context) (pos : Pos) (key : Nat) (name : String) (names : List String)
    (qualifier : String) (value : Script.Expr) : Lower (List Script.Stmt) :=
  if !names.isEmpty then tupleDecl env names value
  else if qualifier ≠ "" then persistentDecl env pos key name value
  else plainDecl env name value

/-- A function as a method of the type of its first parameter, if the program declares the type. -/
def shims (env : Context) (name : String) (params : List Param) (isMethod : Bool) :
    List Script.Stmt :=
  match isMethod, params with
  | true, first :: _ =>
    match env.declarations.record? (baseType first.type) with
    | some r => [.shim (Script.safeName r.name) (Script.safeMember name) (Script.safeName name)]
    | none => []
  | _, _ => []

/-- The body of the branch for all other cases, if there is one. -/
def lastBody : Option (Lower (List Script.Stmt)) → Lower (Option (List Script.Stmt))
  | none => return none
  | some body => return some (← body)

/-- The statements of a switch: a native switch if there is a subject and no arm leaves or
continues a loop around it, which a native switch would catch, and a chain of choices otherwise. -/
def switchStmts (subject : Expr) (bare wrapped : Lower Script.Expr)
    (native : Lower (List Script.Case))
    (branches : Option Nat → Lower (List (Script.Expr × List Script.Stmt)))
    (default : Option (Lower (List Script.Stmt))) (jumps : Bool) : Lower (List Script.Stmt) := do
  if subject.isMissing then
    let branches ← branches none
    return chain branches (← lastBody default)
  else if jumps then
    let value ← wrapped
    let n ← Lower.freshSwitch
    let branches ← branches (some n)
    return .const (Script.subjectName n) value :: chain branches (← lastBody default)
  else
    let value ← bare
    return [.switch value (← native)]

/-! ### Trees -/

mutual

/-- The script of an expression; `bare` tells that its place delimits it. -/
def expr (env : Context) (bare : Bool) : Expr → Lower Script.Expr
  | .missing => Lower.fail ⟨0, 0⟩ .missingExpression
  | .number _ text => return .atom (Script.numberText text)
  | .string _ value => return .literal value
  | .bool _ value => return .atom (if value then "true" else "false")
  | .na _ => return .nan
  | .color _ text => return .literal (Color.normalize text)
  | .name _ n => return nameExpr env (← get).scopes n
  | .member p object property => do
    match memberExpr? env (← get).scopes (.member p object property) with
    | some e => return e
    | none => return .member (← expr env false object) (Script.safeMember property)
  | .index p object offset => do
    let offset ← expr env true offset
    match object with
    | .name _ n => return .history (Script.safeName n) offset
    | object => return .call (.series (siteKey "series" p) (← expr env true object)) [offset]
  | .call p key callee args _ => do
    let named (keep : String → Bool) := namedArgs env keep args
    match callForm env (← get).scopes callee key with
    | .function f => do
      let params := f.params.map Param.name
      let positional ← positionalArgs env args
      let known ← named (· ∈ params)
      let extra ← named (· ∉ params)
      return .call (.name (Script.safeName f.name)) (arrange params positional known extra)
    | .receiver f => do
      let params := f.params.map Param.name
      let first ←
        match callee with
        | .member _ object _ => expr env true object
        | _ => pure .undefined
      let positional ← positionalArgs env args
      let known ← named (· ∈ params)
      let extra ← named (· ∉ params)
      return .call (.name (Script.safeName f.name))
        (arrange params (first :: positional) known extra)
    | .method f => do
      let params := (f.params.drop 1).map Param.name
      let target ←
        match callee with
        | .member _ object property =>
          pure (.member (← expr env false object) (Script.safeMember property))
        | _ => pure .undefined
      let positional ← positionalArgs env args
      let known ← named (· ∈ params)
      let extra ← named (· ∉ params)
      return .call target (arrange params positional known extra)
    | .construct r => do
      let positional ← positionalArgs env args
      let known ← named (· ∈ r.fields)
      let extra ← named (· ∉ r.fields)
      return .call (.member (.name (Script.safeName r.name)) "new")
        (arrange r.fields positional known extra)
    | .silent => return .undefined
    | .input id => return .input id (← argAt env .undefined (Args.index? args "defval" (some 0)) args)
    | .plot id => return .plot id (← argAt env .nan (Args.index? args "series" (some 0)) args)
    | .builtin b => do
      let name := callee.path
      warnArity b name p.line (args.countP (·.name = ""))
      let positional ← positionalArgs env args
      return builtinCall b (siteKey name p) positional (← named (· ≠ ""))
    | .plain => do
      warnUnknown env callee.path p.line
      let target ← expr env false callee
      let positional ← positionalArgs env args
      return .call target (positional ++ options (← named (· ≠ "")))
  | .binary _ op left right => do
    let left ← expr env false left
    let right ← expr env false right
    return wrap bare (.binary op left right)
  | .unary p op operand => do
    let operand ← expr env false operand
    match op with
    | .other spelling => Lower.fail p (.unaryOperator spelling)
    | op => return wrap bare (.unary op operand)
  | .ternary _ cond yes no => do
    let cond ← expr env false cond
    let yes ← expr env false yes
    let no ← expr env false no
    return wrap bare (.ternary cond yes no)
  | .array _ elements => return .array (← exprs env elements)
  | .switch _ subject arms =>
    inScope do
      let body ← switchStmts subject (expr env true subject) (expr env false subject)
        (nativeArms env true arms) (fun n => chainArms env true n arms) (defaultArm env true arms)
        (hasLoopJump arms)
      return valueBlock (hasDefault arms) body
  | .ifElse _ cond yes no =>
    inScope do
      let cond ← expr env true cond
      let yes ← inScope (body env true yes)
      return valueBlock (endsInElse no) [.ifElse cond yes (← elseBranch env true no)]

/-- The scripts of expressions. -/
def exprs (env : Context) : List Expr → Lower (List Script.Expr)
  | [] => return []
  | e :: es => return (← expr env true e) :: (← exprs env es)

/-- The values of positional arguments. -/
def positionalArgs (env : Context) : List Arg → Lower (List Script.Expr)
  | [] => return []
  | .mk name value :: args => do
    if name = "" then return (← expr env true value) :: (← positionalArgs env args)
    else positionalArgs env args

/-- The named arguments with a name to keep. -/
def namedArgs (env : Context) (keep : String → Bool) :
    List Arg → Lower (List (String × Script.Expr))
  | [] => return []
  | .mk name value :: args => do
    if name ≠ "" && keep name then
      return (name, ← expr env true value) :: (← namedArgs env keep args)
    else namedArgs env keep args

/-- The argument at a place, if there is one. -/
def argAt (env : Context) (absent : Script.Expr) : Option Nat → List Arg → Lower Script.Expr
  | none, _ | _, [] | some 0, .mk _ .missing :: _ => return absent
  | some 0, .mk _ value :: _ => expr env true value
  | some (i + 1), _ :: args => argAt env absent (some i) args

/-- The statements of a statement; in `tail` position it returns its value. -/
def stmt (env : Context) (tail : Bool) : Stmt → Lower (List Script.Stmt)
  | .missing => Lower.fail ⟨0, 0⟩ (.statement "")
  | .decl p key name names qualifier _ value => do
    let value ← expr env false value
    let stmts ← declStmts env p key name names qualifier value
    return stmts ++ if tail then [.ret (declaredValue name names)] else []
  | .assign p target op value => do
    let value ← expr env false value
    match target with
    | .name _ n => do
      let target := .name (Script.safeName n)
      let stores ← Lower.afterAssign n
      return .assign target op value :: stores ++ if tail then [.ret target] else []
    | .member q object property => do
      let target ← expr env false (.member q object property)
      return [.assign target op value]
    | target => Lower.fail p (.assignTarget target.kind)
  | .func _ name params stmts isMethod => do
    let names := params.map Param.name
    let stmts ← inScope do
      let _ ← Lower.defineAll .param names
      let first ← Lower.afterDeclareAll env names
      return first ++ (← body env true stmts)
    return .function (Script.safeName name) (names.map Script.safeName) stmts ::
      shims env name params isMethod
  | .ifElse _ cond yes no => do
    let cond ← expr env true cond
    let yes ← inScope (body env tail yes)
    return [.ifElse cond yes (← elseBranch env tail no)]
  | .whileLoop _ cond stmts => do
    let cond ← expr env true cond
    let loop ← Lower.freshLoop
    let stmts ← inScope (body env false stmts)
    return [.counter loop, .whileLoop cond (.guard loop env.loopLimit :: stmts)]
  | .forCount p counter (.decl _ _ _ _ _ _ first) test (.assign _ _ update step) stmts eitherWay =>
    do
    let first ← expr env false first
    match test with
    | .binary _ op _ last => do
      let last ← expr env false last
      let step ← expr env false step
      let loop ← Lower.freshLoop
      let stmts ← inScope do
        let _ ← define counter .loop
        let series ← Lower.afterDeclare env counter
        return .guard loop env.loopLimit :: series ++ (← body env false stmts)
      let name := Script.safeName counter
      return [.counter loop,
        if eitherWay then .forEither name loop first last stmts
        else .forStep name first op last update step stmts]
    | test => Lower.fail p (.loopTest test.kind)
  | .forCount p _ _ _ _ _ _ => Lower.fail p .loopParts
  | .forIn _ index item collection stmts => do
    let collection ← expr env false collection
    let loop ← Lower.freshLoop
    let names := if index = "" then [item] else [index, item]
    let stmts ← inScope do
      let _ ← Lower.defineAll .loop names
      let series ← Lower.afterDeclareAll env names
      return .guard loop env.loopLimit :: series ++ (← body env false stmts)
    return [.counter loop,
      if index = "" then .forOf (Script.safeName item) collection stmts
      else .forEntries (Script.safeName index) (Script.safeName item) collection stmts]
  | .ret _ .missing => return [.retVoid]
  | .ret _ value => return [.ret (← expr env true value)]
  | .brk _ => return [.brk]
  | .cont _ => return [.cont]
  | .switch _ subject arms =>
    switchStmts subject (expr env true subject) (expr env false subject)
      (nativeArms env tail arms) (fun n => chainArms env tail n arms) (defaultArm env tail arms)
      (hasLoopJump arms)
  | .typeDecl _ name fields => return [.classDecl (Script.safeName name) (← slots env fields)]
  | .importLib p path localName => do
    let _ ← define localName .library
    Lower.warn .limited "import" p.line s!"library {path} must be provided by the host runtime"
    return [.importLib (Script.safeName localName) path]
  | .exported _ decl => stmt env false decl
  | .expr _ value => do
    if isSilent env value then return []
    else
      let value ← expr env true value
      return [if tail then .ret value else .expr value]

/-- The statements of a body; in `tail` position the last one returns its value. -/
def body (env : Context) (tail : Bool) : List Stmt → Lower (List Script.Stmt)
  | [] => return []
  | s :: ss => return (← stmt env (tail && ss.isEmpty) s) ++ (← body env tail ss)

/-- What follows the first branch of a choice. -/
def elseBranch (env : Context) (tail : Bool) : List Stmt → Lower Script.Otherwise
  | [] => return .nothing
  | [.ifElse _ cond yes no] => do
    let cond ← expr env true cond
    let yes ← inScope (body env tail yes)
    return .elseIf cond yes (← elseBranch env tail no)
  | s :: ss =>
    inScope do return .block ((← stmt env (tail && ss.isEmpty) s) ++ (← body env tail ss))

/-- The cases of a native switch. -/
def nativeArms (env : Context) (tail : Bool) : List Arm → Lower (List Script.Case)
  | [] => return []
  | .mk .missing stmts :: arms => do
    let stmts ← inScope (body env tail stmts)
    return .default stmts :: (← nativeArms env tail arms)
  | .mk test stmts :: arms => do
    let test ← expr env true test
    let stmts ← inScope (body env tail stmts)
    return .test test stmts :: (← nativeArms env tail arms)

/-- The branches of a chain of choices, which compare with the subject if there is one. -/
def chainArms (env : Context) (tail : Bool) (subject : Option Nat) :
    List Arm → Lower (List (Script.Expr × List Script.Stmt))
  | [] => return []
  | .mk .missing _ :: arms => chainArms env tail subject arms
  | .mk test stmts :: arms => do
    let bare ← expr env true test
    let cond ←
      match subject with
      | none => pure bare
      | some n => pure (.binary .eq (.name (Script.subjectName n)) (← expr env false test))
    let stmts ← inScope (body env tail stmts)
    return (cond, stmts) :: (← chainArms env tail subject arms)

/-- The body of the last default arm. -/
def defaultArm (env : Context) (tail : Bool) : List Arm → Option (Lower (List Script.Stmt))
  | [] => none
  | .mk test stmts :: arms =>
    match defaultArm env tail arms with
    | some later => some later
    | none => if test.isMissing then some (inScope (body env tail stmts)) else none

/-- The fields of a class. -/
def slots (env : Context) : List Field → Lower (List Script.Slot)
  | [] => return []
  | .mk name _ initial :: fields => do
    let initial ← if initial.isMissing then pure .nan else expr env false initial
    return .mk (Script.safeName name) (Script.safeMember name) initial :: (← slots env fields)

end

/-! ### Unfolding -/

/-- An exported declaration is lowered like any other. -/
theorem stmt_exported (env : Context) (tail : Bool) (p : Pos) (decl : Stmt) :
    stmt env tail (.exported p decl) = stmt env false decl := by
  rw [stmt]

/-- An empty list is lowered to nothing, whatever it holds the parts of; a missing expression has no
code. -/
theorem lower_nil (env : Context) (tail : Bool) :
    (∀ bare, expr env bare .missing = Lower.fail ⟨0, 0⟩ .missingExpression) ∧
    exprs env [] = pure [] ∧ positionalArgs env [] = pure [] ∧
    (∀ keep, namedArgs env keep [] = pure []) ∧
    (∀ absent, argAt env absent none [] = pure absent) ∧
    body env tail [] = pure [] ∧ elseBranch env tail [] = pure .nothing ∧
    nativeArms env tail [] = pure [] ∧ (∀ subject, chainArms env tail subject [] = pure []) ∧
    defaultArm env tail [] = none ∧ slots env [] = pure [] := by
  refine ⟨fun _ => ?_, ?_, ?_, fun _ => ?_, fun _ => ?_, ?_, ?_, ?_, fun _ => ?_, ?_, ?_⟩
  · rw [expr]
  · rw [exprs]
  · rw [positionalArgs]
  · rw [namedArgs]
  · rw [argAt]
  · rw [body]
  · rw [elseBranch]
  · rw [nativeArms]
  · rw [chainArms]
  · rw [defaultArm]
  · rw [slots]

end Pine.Lowering
