import Pine.Indicator.Warning
import Pine.Text.Affix

/-!
# Features

Calls of functions that the output does not support, supports in part, or supports under another
name.
-/

namespace Pine.Feature

/-- The namespaces that are not supported at all. -/
def unsupportedSpaces : List String :=
  ["line.", "label.", "box.", "table.", "polyline.", "linefill.", "request.", "strategy."]

/-- The functions that are not supported, with the reason. -/
def unsupportedCalls : List (String × String) :=
  [("security", "external data requests are not supported"),
    ("financial", "external data requests are not supported"),
    ("plotcandle", "candle plots are not supported"),
    ("plotbar", "bar plots are not supported"),
    ("plotarrow", "arrow plots are not supported"),
    ("runtime.error", "runtime errors are not supported"),
    ("log.info", "script logging is not supported"),
    ("log.warning", "script logging is not supported"),
    ("log.error", "script logging is not supported"),
    ("ticker.new", "custom tickers are not supported"),
    ("ticker.heikinashi", "custom tickers are not supported")]

/-- The functions that are supported in part, with what is missing. -/
def partialCalls : List (String × String) :=
  [("fill", "fills are emitted as plain calls and may not render"),
    ("bgcolor", "background colors are passed through to the host"),
    ("barcolor", "bar colors are passed through to the host"),
    ("alertcondition", "alert conditions are recorded but never fire"),
    ("alert", "alerts are recorded but never fire"),
    ("max_bars_back", "history length is managed by the host")]

/-- The functions that have a newer name. -/
def deprecatedCalls : List (String × String) :=
  [("study", "indicator"), ("sma", "ta.sma"), ("ema", "ta.ema"), ("rma", "ta.rma"),
    ("wma", "ta.wma"), ("rsi", "ta.rsi"), ("atr", "ta.atr"), ("stdev", "ta.stdev"),
    ("highest", "ta.highest"), ("lowest", "ta.lowest"), ("crossover", "ta.crossover"),
    ("crossunder", "ta.crossunder"), ("cross", "ta.cross"), ("change", "ta.change"),
    ("tostring", "str.tostring"), ("tonumber", "str.tonumber"), ("abs", "math.abs"),
    ("max", "math.max"), ("min", "math.min"), ("round", "math.round"), ("sqrt", "math.sqrt"),
    ("iff", "the ?: operator")]

/-- The warning about a call of a function on a line. -/
def warning? (name : String) (line : Int) : Option Warning :=
  match unsupportedCalls.lookup name with
  | some reason => some ⟨.unsupported, name, s!"{name}: {reason}", line⟩
  | none =>
    if unsupportedSpaces.any (Text.startsWith name) then
      some ⟨.unsupported, name, s!"{name} is not supported and will be passed through", line⟩
    else
      match partialCalls.lookup name, deprecatedCalls.lookup name with
      | some reason, _ => some ⟨.limited, name, s!"{name}: {reason}", line⟩
      | none, some newer =>
        some ⟨.deprecated, name, s!"{name} is deprecated, use {newer}", line⟩
      | none, none => none

end Pine.Feature
