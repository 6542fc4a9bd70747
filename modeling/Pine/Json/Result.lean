import Pine.Compile
import Pine.Json.Value

/-!
# Results as JSON

The description of an indicator and the result of compiling as JSON. Fields without content are
left out where a reader can do without them; a list that was never begun is `null`.
-/

namespace Pine

namespace JsonField

/-- A field. -/
def always (name : String) (value : JsonValue) : List JsonField := [.mk name value]

/-- A text field that is left out if it is empty. -/
def text (name value : String) : List JsonField :=
  if value = "" then [] else [.mk name (.string value)]

/-- A number field that is left out if it is zero. -/
def count (name : String) (value : Int) : List JsonField :=
  if value = 0 then [] else [.mk name (.integer value)]

/-- A field that is left out if it has no value. -/
def optional (name : String) (value : Option JsonValue) : List JsonField :=
  value.elim [] fun v => [.mk name v]

end JsonField

open JsonField

/-- The items of a list, which is absent if it is empty. -/
def JsonValue.arrayOrNull (items : List JsonValue) : JsonValue :=
  if items.isEmpty then .null else .array items

/-- A set of names. -/
def JsonValue.nameSet (names : List String) : JsonValue :=
  .object (names.map fun n => .mk n (.bool true))

/-- A warning as JSON. -/
def Warning.json (w : Warning) : JsonValue :=
  .object (always "severity" (.string w.severity.name) ++ always "feature" (.string w.feature) ++
    always "message" (.string w.message) ++ count "line" w.line)

/-- Warnings as JSON. -/
def warningsJson (ws : List Warning) : JsonValue := .array (ws.map Warning.json)

/-- An input as JSON. -/
def Input.json (i : Input) : JsonValue :=
  .object (always "id" (.integer i.id) ++ text "var" i.variableName ++
    always "type" (.string i.type) ++ text "title" i.title ++
    always "default" (.string i.initial) ++ optional "min" (i.least.map .number) ++
    optional "max" (i.greatest.map .number) ++ optional "step" (i.step.map .number) ++
    (if i.options.isEmpty then [] else always "options" (.array (i.options.map .string))) ++
    text "tooltip" i.tooltip ++ text "group" i.group)

/-- A plot as JSON. -/
def Plot.json (p : Plot) : JsonValue :=
  .object (always "id" (.integer p.id) ++ always "kind" (.string p.kind) ++
    always "title" (.string p.title) ++ always "color" (.string p.color) ++
    always "width" (.integer p.width) ++ always "style" (.string p.style))

/-- The description of an indicator as JSON. -/
def Indicator.json (i : Indicator) : JsonValue :=
  .object (always "name" (.string i.name) ++ text "shortName" i.shortName ++
    always "overlay" (.bool i.overlay) ++ count "version" i.version ++
    always "inputs" (.arrayOrNull (i.inputs.map Input.json)) ++
    always "plots" (.arrayOrNull (i.plots.map Plot.json)) ++
    always "usedSources" (.nameSet i.sortedSources) ++
    always "historicalRefs" (.nameSet i.sortedHistory) ++
    always "warnings" (warningsJson i.warnings))

/-- A failure as JSON; before lowering there are no warnings. -/
def Failure.json (f : Failure) : JsonValue :=
  .object (always "success" (.bool false) ++ text "error" f.message ++
    count "errorLine" f.line ++ count "errorColumn" f.column ++
    optional "metadata" (f.indicator?.map Indicator.json) ++
    always "warnings" (if f.indicator?.isSome then warningsJson f.warnings else .null))

/-- A compiled source as JSON. -/
def Compiled.json (c : Compiled) : JsonValue :=
  .object (always "success" (.bool true) ++ text "output" c.script.text ++
    always "metadata" c.indicator.json ++ always "warnings" (warningsJson c.indicator.warnings))

/-- The result of compiling as JSON. -/
def resultJson : Except Failure Compiled → JsonValue
  | .ok c => c.json
  | .error f => f.json

end Pine
