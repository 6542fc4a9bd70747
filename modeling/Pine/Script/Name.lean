import Pine.Text.Affix
import Pine.Token.Piece

/-!
# Names of scripts

A name of the source keeps its spelling in the script unless the spelling means something there:
a reserved word, a global that a script must not reach, or a name that only the compiler makes up.
Such a name gets a start of its own. The names that the compiler makes up all begin in a way that
no other name of the script does.
-/

namespace Pine.Script

/-! ### Spellings with a meaning -/

/-- The words of the target language. -/
def words : List String :=
  ["break", "case", "catch", "class", "const", "continue", "debugger", "default", "delete", "do",
    "else", "enum", "export", "extends", "false", "finally", "for", "function", "if", "import",
    "in", "instanceof", "new", "null", "return", "super", "switch", "this", "throw", "true", "try",
    "typeof", "var", "void", "while", "with", "yield", "let", "static", "implements", "interface",
    "package", "private", "protected", "public", "await", "async"]

/-- The globals that a script must neither hide nor reach. -/
def globals : List String :=
  ["arguments", "eval", "undefined", "NaN", "Infinity", "constructor", "prototype", "__proto__",
    "Function", "Object", "Array", "Number", "String", "Boolean", "Symbol", "Math", "JSON", "Date",
    "Error", "Reflect", "Proxy", "Promise", "globalThis", "window", "self", "document", "process",
    "require", "module", "exports", "setTimeout", "setInterval", "fetch", "isNaN", "isFinite"]

/-- The names by which a script and its host know each other. -/
def hostNames : List String := ["ctx", "main"]

/-- The names that no variable of a script has. -/
def reserved : List String := words ++ globals ++ hostNames

/-- How the names begin that the compiler makes up. -/
def madeUpStarts : List String :=
  ["_series_", "_getHistorical_", "_var_", "_loop", "_switch", "_wrapSeries", "_import", "_ta",
    "_rt", "_pine_"]

/-- The members that reach into the insides of an object. -/
def innerMembers : List String :=
  ["constructor", "prototype", "__proto__", "__defineGetter__", "__defineSetter__",
    "__lookupGetter__", "__lookupSetter__"]

/-! ### Safe spellings -/

/-- What stands before a name that cannot keep its spelling. -/
def safeStart : String := "_pine_"

/-- Whether a name can keep its spelling. -/
def keepsSpelling (name : String) : Bool :=
  name ∉ reserved && !madeUpStarts.any (Text.startsWith name)

/-- The spelling of a name. -/
def safeName (name : String) : String := if keepsSpelling name then name else safeStart ++ name

/-- The spelling of a member. -/
def safeMember (name : String) : String := if name ∈ innerMembers then safeStart ++ name else name

/-- Whether a text is shaped like a name. -/
def isNameShaped (name : String) : Bool :=
  match name.toList with
  | [] => false
  | c :: cs => Piece.isWordStart c && cs.all Piece.isWordPart

/-- The names that the entry function may have: those that keep their spelling, and `main`. -/
def isFunctionName (name : String) : Bool :=
  isNameShaped name && (name = "main" || keepsSpelling name)

/-! ### Names that the compiler makes up -/

/-- The series with the history of a variable. -/
def seriesName (name : String) : String := "_series_" ++ name

/-- The function that reads the history of a variable. -/
def historyName (name : String) : String := "_getHistorical_" ++ name

/-- The cell that keeps a variable from bar to bar. -/
def cellName (name : String) : String := "_var_" ++ name

/-- The counter of a loop. -/
def loopName (n : Nat) : String := "_loop" ++ toString n

/-- The direction of a loop that may count up or down. -/
def directionName (n : Nat) : String := loopName n ++ "_dir"

/-- The value that a switch compares. -/
def subjectName (n : Nat) : String := "_switch" ++ toString n

end Pine.Script
