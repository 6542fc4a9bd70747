import Pine.Indicator.Color
import Pine.Lowering.Basic

/-!
# Names and calls

What a name, a member or a call means is decided by the program's own declarations first, then by
the names that describe an indicator, then by the registry.
-/

namespace Pine.Lowering

/-! ### Namespaces -/

/-- The namespaces of library functions. -/
def functionSpaces : List String :=
  ["ta", "math", "str", "array", "matrix", "map", "color", "request", "strategy", "timeframe",
    "syminfo", "barstate", "input", "chart", "line", "label", "box", "table", "polyline",
    "linefill", "ticker", "runtime", "log"]

/-- The namespaces of constants, which become their own names. -/
def constantSpaces : List String :=
  ["plot", "shape", "location", "size", "hline", "display", "extend", "xloc", "yloc", "position",
    "text", "font", "order", "currency", "scale", "format", "barmerge", "dayofweek", "alert",
    "adjustment", "session", "settlement_as_close", "backadjustment"]

/-! ### Names and members -/

/-- Whether a dotted name starts at a variable or type of the program; any other expression is a
value of the program. -/
def isOwnValue (env : Context) (scopes : Scopes) : Expr → Bool
  | .name _ n => (scopes.find? n).isSome || (env.declarations.record? n).isSome
  | .member _ object _ => isOwnValue env scopes object
  | _ => true

/-- The script of a name. -/
def nameExpr (env : Context) (scopes : Scopes) (n : String) : Script.Expr :=
  if (scopes.find? n).isSome then .name (Script.safeName n)
  else if n = "na" then .nan
  else if n ∈ priceSources then .name (Script.safeName n)
  else
    match env.registry.find? n with
    | some builtin => .atom builtin.target
    | none => .name (Script.safeName n)

/-- The script of a dotted name that is a color, a builtin or a constant. -/
def constantExpr? (env : Context) (name : String) : Option Script.Expr :=
  let color := if Text.startsWith name "color." then Color.named? name else none
  match color, env.registry.find? name with
  | some color, _ => some (.literal color)
  | none, some builtin => some (.atom builtin.target)
  | none, none => if Text.beforeDot name ∈ constantSpaces then some (.literal name) else none

/-- The script of a member that is a constant and not a part of a value of the program. -/
def memberExpr? (env : Context) (scopes : Scopes) (e : Expr) : Option Script.Expr :=
  if isOwnValue env scopes e then none else constantExpr? env e.path

/-! ### Calls -/

/-- The calls that only describe the indicator. -/
def isSilentName (name : String) : Bool := name ∈ declarationCalls || name = "hline"

/-- Whether an expression statement only describes the indicator. -/
def isSilent (env : Context) : Expr → Bool
  | .call _ _ callee _ _ =>
    (env.declarations.function? callee.path).isNone && isSilentName callee.path
  | _ => false

/-- The forms of calls. -/
inductive CallForm where
  /-- A function of the program. -/
  | function (f : Function)
  /-- A method of a builtin type, called as a function of its object. -/
  | receiver (f : Function)
  /-- A method of a type of the program. -/
  | method (f : Function)
  /-- A new value of a type of the program. -/
  | construct (r : Record)
  /-- A call that only describes the indicator. -/
  | silent
  /-- An input. -/
  | input (id : Nat)
  /-- A plot. -/
  | plot (id : Nat)
  /-- A builtin. -/
  | builtin (b : Builtin)
  /-- A call that is passed on as it is. -/
  | plain

/-- The form of a method call or a construction. -/
def memberCallForm? (env : Context) (scopes : Scopes) : Expr → Option CallForm
  | .member _ object property =>
    let method := do
      let f ← env.declarations.method? property
      let first ← f.params.head?
      if isOwnValue env scopes object then
        return if (env.declarations.record? (baseType first.type)).isSome then .method f
          else .receiver f
      else none
    let construct := do
      let r ← env.declarations.record? object.path
      if property = "new" then return .construct r else none
    method <|> construct
  | _ => none

/-- The form of a call that describes an input or a plot. -/
def describedForm? (env : Context) (name : String) (key : Nat) : Option CallForm :=
  if isSilentName name then some .silent
  else if isInputCall name then (env.indicator.inputIds.lookup key).map .input
  else if name ∈ plotKinds then (env.indicator.plotIds.lookup key).map .plot
  else none

/-- The form of a call. -/
def callForm (env : Context) (scopes : Scopes) (callee : Expr) (key : Nat) : CallForm :=
  let name := callee.path
  let own := (env.declarations.function? name).map .function
  let builtin := if name = "" then none else (env.registry.find? name).map .builtin
  (own <|> memberCallForm? env scopes callee <|> describedForm? env name key <|> builtin).getD
    .plain

/-- Warns about a library function that the registry does not know. -/
def warnUnknown (env : Context) (name : String) (line : Int) : Lower Unit :=
  if Text.hasDot name && Text.beforeDot name ∈ functionSpaces then
    Lower.warn .unsupported name line <|
      match env.registry.suggestion? name with
      | some similar => s!"{name} is not supported; did you mean {similar}?"
      | none => s!"{name} is not supported and will be passed through"
  else return ()

/-- Warns about arguments that a builtin does not take. -/
def warnArity (b : Builtin) (name : String) (line : Int) (count : Nat) : Lower Unit :=
  if 0 < b.arity && b.arity < count then
    Lower.warn .limited name line
      s!"{name} takes at most {b.arity} arguments, got {count}; extra arguments may be ignored"
  else return ()

/-! ### Arguments -/

/-- Puts a value into a slot; slots in front of it that have no value stay undefined. -/
def place (slots : List Script.Expr) (i : Nat) (value : Script.Expr) : List Script.Expr :=
  (slots ++ List.replicate (i + 1 - slots.length) Script.Expr.undefined).set i value

/-- An object with named values. -/
def options (named : List (String × Script.Expr)) : List Script.Expr :=
  if named.isEmpty then []
  else [.object (named.map fun (name, value) => .mk (Script.safeMember name) value)]

/-- Arguments in the order of the parameters: the positional values first, each named value in the
slot of its parameter, and the values that name no parameter in an object behind all others. -/
def arrange (params : List String) (positional : List Script.Expr)
    (named extra : List (String × Script.Expr)) : List Script.Expr :=
  named.foldl (fun slots (name, value) => place slots (params.idxOf name) value) positional ++
    options extra

/-- The key of a place that keeps state. -/
def siteKey (name : String) (p : Pos) : String := s!"{name}@{p.line}:{p.column}"

/-- The call of a builtin with its arguments. -/
def builtinCall (b : Builtin) (key : String) (positional : List Script.Expr)
    (named : List (String × Script.Expr)) : Script.Expr :=
  let positional :=
    match b.takesSeries, positional with
    | true, first :: rest => .series key first :: rest
    | _, args => args
  .call (.atom b.target)
    (positional ++ options named ++ if b.takesContext then [.name "ctx"] else [])

end Pine.Lowering
