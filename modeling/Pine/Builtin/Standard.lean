import Pine.Builtin.Suggestion

/-!
# The standard registry

The builtins that the host library provides: technical analysis in one object, everything else in
another, and the arithmetic that the target language has itself.
-/

namespace Pine

namespace Builtin

/-- A function that reads the history of its first argument and keeps state for each call. -/
def series (target : String) (arity : Int) : Builtin := ⟨target, true, true, arity⟩

/-- A function that reads the bars. -/
def stateful (target : String) (arity : Int) : Builtin := ⟨target, false, true, arity⟩

/-- A function of its arguments alone. -/
def plain (target : String) (arity : Int) : Builtin := ⟨target, false, false, arity⟩

/-- A value. -/
def constant (target : String) : Builtin := ⟨target, false, false, 0⟩

end Builtin

namespace Registry

open Builtin

/-- Technical analysis: averages, oscillators, extremes and crossings of series. -/
def technical : List (String × Builtin) :=
  [("ta.sma", series "_ta.sma" 2),
    ("ta.ema", series "_ta.ema" 2),
    ("ta.rma", series "_ta.rma" 2),
    ("ta.wma", series "_ta.wma" 2),
    ("ta.vwma", series "_ta.vwma" 2),
    ("ta.hma", series "_ta.hma" 2),
    ("ta.alma", series "_ta.alma" 5),
    ("ta.swma", series "_ta.swma" 1),
    ("ta.linreg", series "_ta.linreg" 3),
    ("ta.rsi", series "_ta.rsi" 2),
    ("ta.cci", series "_ta.cci" 2),
    ("ta.cmo", series "_ta.cmo" 2),
    ("ta.mfi", series "_ta.mfi" 2),
    ("ta.mom", series "_ta.mom" 2),
    ("ta.roc", series "_ta.roc" 2),
    ("ta.change", series "_ta.change" 2),
    ("ta.stdev", series "_ta.stdev" 3),
    ("ta.variance", series "_ta.variance" 3),
    ("ta.dev", series "_ta.dev" 2),
    ("ta.highest", series "_ta.highest" 2),
    ("ta.lowest", series "_ta.lowest" 2),
    ("ta.highestbars", series "_ta.highestbars" 2),
    ("ta.lowestbars", series "_ta.lowestbars" 2),
    ("ta.median", series "_ta.median" 2),
    ("ta.percentrank", series "_ta.percentrank" 2),
    ("ta.cum", series "_ta.cum" 1),
    ("ta.crossover", series "_ta.crossover" 2),
    ("ta.crossunder", series "_ta.crossunder" 2),
    ("ta.cross", series "_ta.cross" 2),
    ("ta.rising", series "_ta.rising" 2),
    ("ta.falling", series "_ta.falling" 2),
    ("ta.valuewhen", series "_ta.valuewhen" 3),
    ("ta.barssince", series "_ta.barssince" 1),
    ("ta.pivothigh", series "_ta.pivothigh" 3),
    ("ta.pivotlow", series "_ta.pivotlow" 3),
    ("ta.bb", series "_ta.bb" 3),
    ("ta.bbw", series "_ta.bbw" 3),
    ("ta.kc", series "_ta.kc" 4),
    ("ta.macd", series "_ta.macd" 4),
    ("ta.stoch", series "_ta.stoch" 4),
    ("ta.tsi", series "_ta.tsi" 3),
    ("ta.wpr", stateful "_ta.wpr" 1),
    ("ta.atr", stateful "_ta.atr" 1),
    ("ta.dmi", stateful "_ta.dmi" 2),
    ("ta.supertrend", stateful "_ta.supertrend" 2),
    ("ta.sar", stateful "_ta.sar" 3),
    ("ta.vwap", series "_ta.vwap" 3),
    ("ta.tr", constant "_ta.tr(ctx)"),
    ("ta.obv", constant "_ta.obv(ctx)")]

/-- Arithmetic functions and constants. -/
def arithmetic : List (String × Builtin) :=
  [("math.abs", plain "Math.abs" 1),
    ("math.ceil", plain "Math.ceil" 1),
    ("math.floor", plain "Math.floor" 1),
    ("math.sign", plain "Math.sign" 1),
    ("math.sqrt", plain "Math.sqrt" 1),
    ("math.exp", plain "Math.exp" 1),
    ("math.log", plain "Math.log" 1),
    ("math.log10", plain "Math.log10" 1),
    ("math.pow", plain "Math.pow" 2),
    ("math.sin", plain "Math.sin" 1),
    ("math.cos", plain "Math.cos" 1),
    ("math.tan", plain "Math.tan" 1),
    ("math.asin", plain "Math.asin" 1),
    ("math.acos", plain "Math.acos" 1),
    ("math.atan", plain "Math.atan" 1),
    ("math.max", plain "Math.max" 0),
    ("math.min", plain "Math.min" 0),
    ("math.round", plain "_rt.round" 2),
    ("math.avg", plain "_rt.avg" 0),
    ("math.random", plain "_rt.random" 3),
    ("math.todegrees", plain "_rt.todegrees" 1),
    ("math.toradians", plain "_rt.toradians" 1),
    ("math.round_to_mintick", stateful "_rt.roundToMintick" 1),
    ("math.sum", series "_ta.sum" 2),
    ("math.pi", constant "Math.PI"),
    ("math.e", constant "Math.E"),
    ("math.phi", constant "1.618033988749895"),
    ("math.rphi", constant "0.618033988749895")]

/-- Times and the calendar fields of the current bar. -/
def calendar : List (String × Builtin) :=
  [("timestamp", plain "_rt.timestamp" 7),
    ("time_close", constant "ctx.timeClose"),
    ("hour", constant "ctx.hour"),
    ("minute", constant "ctx.minute"),
    ("second", constant "ctx.second"),
    ("dayofmonth", constant "ctx.dayofmonth"),
    ("dayofweek", constant "ctx.dayofweek"),
    ("weekofyear", constant "ctx.weekofyear"),
    ("month", constant "ctx.month"),
    ("year", constant "ctx.year"),
    ("timenow", constant "Date.now()")]

/-- Values that are not available, and the state of the current bar. -/
def comparison : List (String × Builtin) :=
  [("nz", plain "_rt.nz" 2),
    ("na", plain "_rt.isNa" 1),
    ("fixnan", series "_rt.fixnan" 1),
    ("barstate.isfirst", constant "(ctx.barIndex === 0)"),
    ("barstate.islast", constant "ctx.isLast"),
    ("barstate.isconfirmed", constant "true"),
    ("barstate.ishistory", constant "!ctx.isLast"),
    ("barstate.isrealtime", constant "false")]

/-- Strings, arrays, colors, conversions and facts about the symbol. -/
def general : List (String × Builtin) :=
  [("str.tostring", plain "_rt.tostring" 2),
    ("str.tonumber", plain "_rt.tonumber" 1),
    ("str.format", plain "_rt.format" 0),
    ("str.length", plain "_rt.strlen" 1),
    ("str.contains", plain "_rt.contains" 2),
    ("str.upper", plain "_rt.upper" 1),
    ("str.lower", plain "_rt.lower" 1),
    ("str.replace", plain "_rt.replace" 4),
    ("array.new_float", plain "_rt.arrayNew" 2),
    ("array.new_int", plain "_rt.arrayNew" 2),
    ("array.new_bool", plain "_rt.arrayNew" 2),
    ("array.from", plain "Array.of" 0),
    ("array.push", plain "_rt.push" 2),
    ("array.get", plain "_rt.get" 2),
    ("array.set", plain "_rt.set" 3),
    ("array.size", plain "_rt.size" 1),
    ("array.sum", plain "_rt.arraySum" 1),
    ("array.avg", plain "_rt.arrayAvg" 1),
    ("int", plain "Math.trunc" 1),
    ("float", plain "Number" 1),
    ("bool", plain "Boolean" 1),
    ("color.new", plain "_rt.colorNew" 2),
    ("color.rgb", plain "_rt.colorRgb" 4),
    ("syminfo.mintick", constant "ctx.mintick"),
    ("syminfo.ticker", constant "ctx.ticker"),
    ("timeframe.period", constant "ctx.timeframe")]

/-- All builtins of the host library. -/
def standard : Registry :=
  (Registry.mk technical true).overlay [arithmetic, calendar, comparison, general]

end Registry

end Pine
