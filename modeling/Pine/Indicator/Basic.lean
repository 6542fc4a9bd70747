import Pine.Indicator.Warning
import Pine.Number.Binary64
import Pine.Text.Affix

/-!
# Indicators

An indicator is a script as its host sees it: its title, the inputs that a user can set, what it
plots, which price series it reads, and the names whose history it reads.
-/

namespace Pine

/-- An input that a user can set. -/
structure Input where
  /-- The number of the input. -/
  id : Nat
  /-- The variable that it initializes, if it has one of its own. -/
  variableName : String
  /-- The type of its values. -/
  type : String
  /-- The title. -/
  title : String
  /-- The default value as shown to the user. -/
  initial : String
  /-- The least value. -/
  least : Option Binary64
  /-- The greatest value. -/
  greatest : Option Binary64
  /-- The distance between values. -/
  step : Option Binary64
  /-- The values to choose from, if they are listed. -/
  options : List String
  /-- A help text. -/
  tooltip : String
  /-- The group in which it is shown. -/
  group : String

/-- Something that is plotted. -/
structure Plot where
  /-- The number of the plot. -/
  id : Nat
  /-- The kind of plot. -/
  kind : String
  /-- The title. -/
  title : String
  /-- The color. -/
  color : String
  /-- The line width. -/
  width : Int
  /-- The line style. -/
  style : String

/-- A script as its host sees it. -/
structure Indicator where
  /-- The title. -/
  name : String := ""
  /-- The short title. -/
  shortName : String := ""
  /-- Whether it is drawn over the prices. -/
  overlay : Bool := false
  /-- The language version, zero if not stated. -/
  version : Nat := 0
  /-- The inputs by number. -/
  inputs : List Input := []
  /-- The plots by number. -/
  plots : List Plot := []
  /-- The price series that are read. -/
  sources : List String := []
  /-- The names whose history is read. -/
  history : List String := []
  /-- The warnings about it. -/
  warnings : List Warning := []
  /-- The number of the input at each call that makes one, by the key of the call. -/
  inputIds : List (Nat × Nat) := []
  /-- The number of the plot at each call that makes one, by the key of the call. -/
  plotIds : List (Nat × Nat) := []

namespace Indicator

/-- The price series that are read, in ascending order. -/
def sortedSources (i : Indicator) : List String := Text.sorted i.sources

/-- The names whose history is read, in ascending order. -/
def sortedHistory (i : Indicator) : List String := Text.sorted i.history

end Indicator

/-! ### Names that describe an indicator -/

/-- The price series that every bar has. -/
def priceSources : List String :=
  ["open", "high", "low", "close", "volume", "hl2", "hlc3", "ohlc4", "hlcc4", "time", "bar_index"]

/-- The calls that declare the script. -/
def declarationCalls : List String := ["indicator", "strategy", "library", "study"]

/-- The calls that plot. -/
def plotKinds : List String := ["plot", "plotshape", "plotchar", "hline"]

/-- The calls that make an input of a known type. -/
def inputTypes : List (String × String) :=
  [("input.int", "integer"), ("input.float", "float"), ("input.bool", "bool"),
    ("input.string", "string"), ("input.source", "source"), ("input.session", "session"),
    ("input.color", "color"), ("input.timeframe", "timeframe"), ("input.symbol", "symbol"),
    ("input.time", "time"), ("input.price", "price"), ("input.text_area", "text_area")]

/-- Whether a call with this name makes an input. -/
def isInputCall (name : String) : Bool := name = "input" || (inputTypes.lookup name).isSome

end Pine
