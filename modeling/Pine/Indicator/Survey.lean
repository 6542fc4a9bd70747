import Pine.Indicator.Basic
import Pine.Indicator.Color
import Pine.Indicator.Feature
import Pine.Tree.Text
import Pine.Tree.Walk

/-!
# Surveying a program

One walk over a program finds what describes it as an indicator. Inputs and plots are numbered in
walking order. A call by a plain name does not read that name, so its callee is left out of the
walk. Functions of the program hide the builtin functions of the same name.
-/

namespace Pine

/-! ### Parts of descriptions -/

/-- The value of a string literal. -/
def Expr.string? : Expr → Option String
  | .string _ value => some value
  | _ => none

/-- A default or option value as the host shows it. -/
def Expr.display (e : Expr) : String :=
  match e with
  | .missing => ""
  | .string _ value => value
  | .na _ => "na"
  | .unary _ .neg (.number _ text) => "-" ++ text
  | e => e.color?.getD e.text

/-- The types that an untyped input can name. -/
def legacyInputTypes : List (String × String) :=
  [("integer", "integer"), ("float", "float"), ("bool", "bool"), ("string", "string"),
    ("source", "source"), ("resolution", "timeframe"), ("session", "session"),
    ("symbol", "symbol"), ("color", "color"), ("time", "time"), ("price", "price")]

/-- Whether a number is spelled without a fraction or an exponent. -/
def isIntegerText (text : String) : Bool :=
  !text.toList.any fun c => c = '.' || c = 'e' || c = 'E'

/-- The type that a default value suggests. -/
def typeOfDefault (initial : Expr) : String :=
  let e :=
    match initial with
    | .unary _ .neg operand => operand
    | e => e
  match e with
  | .number _ text => if isIntegerText text then "integer" else "float"
  | .bool .. => "bool"
  | .string .. => "string"
  | .color .. => "color"
  | .name _ n => if n ∈ priceSources then "source" else "float"
  | e => if e.color?.isSome then "color" else "float"

/-- The type of an untyped input: the type that it names, or else that of its default value. -/
def legacyInputType (args : List Arg) (initial : Expr) : String :=
  let stated :=
    match Args.named args "type" with
    | .member _ _ property => legacyInputTypes.lookup property
    | _ => none
  stated.getD (typeOfDefault initial)

/-- The input that a call makes. -/
def Input.ofCall (id : Nat) (variableName name : String) (args : List Arg) : Input :=
  let initial := Args.find args "defval" (some 0)
  let isNumeric := name = "input.int" || name = "input.float"
  let bound (key : String) (position : Nat) :=
    (Args.find args key (if isNumeric then some position else none)).literal?
  { id, variableName
    type := (inputTypes.lookup name).getD (legacyInputType args initial)
    title := (Args.find args "title" (some 1)).string?.getD ""
    initial := initial.display
    least := bound "minval" 2
    greatest := bound "maxval" 3
    step := bound "step" 4
    options :=
      match Args.named args "options" with
      | .array _ elements => elements.map Expr.display
      | _ => []
    tooltip := (Args.named args "tooltip").string?.getD ""
    group := (Args.named args "group").string?.getD "" }

/-- The color of a plot whose color is not known before the script runs. -/
def Plot.standardColor : String := "#2962FF"

/-- The positions of color, style and width among the arguments of a plotting call. -/
def Plot.slots (kind : String) : Option Nat × Option Nat × Option Nat :=
  match kind with
  | "plotshape" => (some 4, some 2, none)
  | "plotchar" => (some 4, none, none)
  | "hline" => (some 2, some 3, some 4)
  | _ => (some 2, some 4, some 3)

/-- The plot that a call makes. -/
def Plot.ofCall (id : Nat) (kind : String) (args : List Arg) : Plot :=
  let (color, style, width) := Plot.slots kind
  { id, kind
    title := (Args.find args "title" (some 1)).string?.getD s!"Plot {id + 1}"
    color := (Args.find args "color" color).color?.getD Plot.standardColor
    width := ((Args.find args "linewidth" width).literal?.map Binary64.truncate).getD 1
    style :=
      match Args.find args (if kind = "hline" then "linestyle" else "style") style with
      | .member _ _ property => Text.dropStart "style_" property
      | _ => "line" }

/-! ### The walk -/

/-- What a walk has found so far. -/
structure Survey where
  /-- The indicator. -/
  indicator : Indicator := {}
  /-- The warnings. -/
  diagnostics : Diagnostics := {}
  /-- The names that calls initialize, by the key of the call. -/
  declared : List (Nat × String) := []

namespace Survey

/-- A declaration of the script itself. -/
def declaration (i : Indicator) (name : String) (args : List Arg) : Indicator :=
  let isLibrary := name = "library"
  { i with
    name := (Args.find args "title" (some 0)).string?.getD i.name
    shortName :=
      if isLibrary then i.shortName
      else (Args.find args "shorttitle" (some 1)).string?.getD i.shortName
    overlay :=
      match Args.find args "overlay" (some (if isLibrary then 1 else 2)) with
      | .bool _ value => value
      | _ => i.overlay }

/-- One more warning. -/
def warn (s : Survey) (w : Warning) : Survey := { s with diagnostics := s.diagnostics.warn w }

/-- One more input, made by the call with a key. -/
def input (s : Survey) (name : String) (key : Nat) (args : List Arg) : Survey :=
  let i := s.indicator
  let id := i.inputs.length
  let made := Input.ofCall id ((s.declared.lookup key).getD "") name args
  { s with indicator.inputs := i.inputs ++ [made], indicator.inputIds := (key, id) :: i.inputIds }

/-- One more plot, made by the call with a key. -/
def plot (s : Survey) (name : String) (key : Nat) (args : List Arg) : Survey :=
  let i := s.indicator
  let id := i.plots.length
  let made := Plot.ofCall id name args
  { s with indicator.plots := i.plots ++ [made], indicator.plotIds := (key, id) :: i.plotIds }

/-- A call of a builtin function by its dotted name. -/
def builtinCall (s : Survey) (name : String) (line : Int) (key : Nat) (args : List Arg) : Survey :=
  if name ∈ declarationCalls then
    let s := { s with indicator := declaration s.indicator name args }
    if name = "study" then
      s.warn ⟨.deprecated, name, "study() is deprecated, use indicator()", line⟩
    else s
  else if isInputCall name then s.input name key args
  else if name ∈ plotKinds then s.plot name key args
  else ((Feature.warning? name line).map s.warn).getD s

/-- What one node adds, where `functions` are the names of the program's own functions. -/
def visit (functions : List String) (s : Survey) : Node → Survey
  | .stmt (.decl _ _ name _ _ _ (.call _ key _ _ _)) =>
    if name = "" then s else { s with declared := (key, name) :: s.declared }
  | .expr (.name _ n) =>
    if n ∈ priceSources then
      { s with indicator.sources := Text.addName n s.indicator.sources }
    else s
  | .expr (.index _ (.name _ n) _) =>
    { s with indicator.history := Text.addName n s.indicator.history }
  | .expr (.call p key callee args _) =>
    let name := callee.path
    if name = "" || name ∈ functions then s else s.builtinCall name p.line key args
  | _ => s

/-- A walk that does not count the name of a called function as a read of that name. -/
def descend : Node → Descent
  | .expr (.call _ _ (.name ..) _ _) => .arguments
  | _ => .parts

end Survey

/-- The names of all functions that a program declares. -/
def Program.functionNames (program : Program) : List String :=
  program.nodes.filterMap fun n =>
    match n with
    | .stmt (.func _ name _ _ _) => some name
    | _ => none

/-- The indicator of a keyed program, and the warnings after those of earlier stages. -/
def Indicator.ofProgram (program : Program) (d : Diagnostics) : Indicator × Diagnostics :=
  let nodes := walkStmts Survey.descend program
  let s := nodes.foldl (Survey.visit program.functionNames) { diagnostics := d }
  ({ s.indicator with warnings := s.diagnostics.warnings }, s.diagnostics)

end Pine
