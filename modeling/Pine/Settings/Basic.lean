import Pine.Command.Path
import Pine.Compile
import Pine.Settings.Table

/-!
# Settings

The settings of the compiler are read from a settings file over the standard ones. Names of settings
are compared without regard to case. A key that names no setting is an error, so that a misspelled
key does not go unnoticed.
-/

namespace Pine

/-- The settings. -/
structure Settings where
  /-- The greatest number of tokens, zero for no ceiling. -/
  maxTokens : Int := Limits.standard.maxTokens
  /-- The greatest depth of nesting, zero for no ceiling. -/
  maxDepth : Int := Limits.standard.maxDepth
  /-- The greatest number of rounds of a loop. -/
  loopLimit : Int := Lowering.standardLoopLimit
  /-- The name of the entry function. -/
  functionName : String := Lowering.standardFunctionName
  /-- Whether functions that are never called are dropped. -/
  pruneUnused : Bool := true
  /-- What replaces the extension of a source in the name of its output. -/
  extension : String := ".js"
  deriving DecidableEq, Repr

/-- Why settings are not accepted. -/
inductive SettingsError where
  /-- The file is no document, or a setting has a value of the wrong kind. -/
  | document
  /-- Keys that name no setting. -/
  | unknownKeys (keys : List Key)
  | maxTokens (value : Int)
  | maxDepth (value : Int)
  | loopLimit (value : Int)
  | functionName
  | extension (value : String)
  deriving DecidableEq, Repr

namespace Key

/-- How a character of a quoted key is written. -/
def escapedChar (c : Char) : List Char :=
  if c = '"' || c = '\\' then ['\\', c]
  else if c = '\x08' then ['\\', 'b']
  else if c = '\t' then ['\\', 't']
  else if c = '\n' then ['\\', 'n']
  else if c = '\x0c' then ['\\', 'f']
  else if c = '\r' then ['\\', 'r']
  else if c.toNat < 0x20 || c.toNat = 0x7F then Text.codeEscape c
  else [c]

/-- A part of a key, quoted unless it needs no quotes. -/
def partText (part : String) : String :=
  if part ≠ "" && part.toList.all Document.isKeyChar then part
  else String.ofList ('"' :: part.toList.flatMap escapedChar ++ ['"'])

/-- A dotted key. -/
def text (key : Key) : String := ".".intercalate (key.map partText)

end Key

/-- An error in words. -/
def SettingsError.message : SettingsError → String
  | document => "config: toml: not a settings document"
  | unknownKeys keys => "config: unknown keys: " ++ ", ".intercalate (keys.map Key.text)
  | maxTokens n => s!"config: limits.max_tokens must not be negative, got {n}"
  | maxDepth n => s!"config: limits.max_depth must not be negative, got {n}"
  | loopLimit n => s!"config: limits.loop_limit must be positive, got {n}"
  | functionName => "config: output.function_name must not be empty"
  | extension e => s!"config: output.extension must start with a dot, got {Text.quote e}"

namespace Settings

/-! ### Reading -/

/-- A character without regard to case. Two letters outside of ASCII fold to letters inside. -/
def foldChar (c : Char) : Char :=
  if c = '\u017f' then 's' else if c = '\u212a' then 'k' else c.toLower

/-- Whether a key is a name up to case. -/
def matchesName (name key : String) : Bool := key.toList.map foldChar = name.toList

/-- The setting that a name selects from the names of a group. -/
def select? {α : Type} (settings : List (String × α)) (key : String) : Option α :=
  (settings.find? fun s => matchesName s.1 key).map Prod.snd

/-- How a setting takes its value; none for a value of the wrong kind. -/
abbrev Field := Setting → Settings → Option Settings

/-- A setting with an integer. -/
def integerField (set : Int → Settings → Settings) : Field := fun v s =>
  match v with
  | .integer n => some (set n s)
  | _ => none

/-- A setting with a text. -/
def textField (set : String → Settings → Settings) : Field := fun v s =>
  match v with
  | .text t => some (set t s)
  | _ => none

/-- A setting with a truth value. -/
def boolField (set : Bool → Settings → Settings) : Field := fun v s =>
  match v with
  | .bool b => some (set b s)
  | _ => none

/-- The groups of settings. -/
def groups : List (String × List (String × Field)) :=
  [("limits",
      [("max_tokens", integerField fun n s => { s with maxTokens := n }),
        ("max_depth", integerField fun n s => { s with maxDepth := n }),
        ("loop_limit", integerField fun n s => { s with loopLimit := n })]),
    ("output",
      [("function_name", textField fun t s => { s with functionName := t }),
        ("prune_unused", boolField fun b s => { s with pruneUnused := b }),
        ("extension", textField fun t s => { s with extension := t })])]

/-- Settings with those of a group in a table, and the known keys of the table. -/
def readGroup (fields : List (String × Field)) :
    Table → Settings → Option (Settings × List String)
  | [], s => some (s, [])
  | .mk key value :: table, s =>
    match select? fields key with
    | none => readGroup fields table s
    | some field => do
      let s ← field value s
      let (s, known) ← readGroup fields table s
      return (s, key :: known)

/-- Settings with those in a tree, and the known keys of the tree. -/
def readGroups : Table → Settings → Option (Settings × List Key)
  | [], s => some (s, [])
  | .mk key value :: table, s =>
    match select? groups key, value with
    | none, _ => readGroups table s
    | some fields, .table t => do
      let (s, known) ← readGroup fields t s
      let (s, more) ← readGroups table s
      return (s, [key] :: known.map ([key, ·]) ++ more)
    | some _, _ => none

/-- Refuses settings that make no sense; the first reason counts. -/
def check (s : Settings) : Except SettingsError Settings :=
  if s.maxTokens < 0 then .error (.maxTokens s.maxTokens)
  else if s.maxDepth < 0 then .error (.maxDepth s.maxDepth)
  else if s.loopLimit ≤ 0 then .error (.loopLimit s.loopLimit)
  else if s.functionName = "" then .error .functionName
  else if !Text.startsWith s.extension "." then .error (.extension s.extension)
  else .ok s

/-- The settings of a file. -/
def read (text : List Char) : Except SettingsError Settings :=
  match Builder.ofText? text with
  | none => .error .document
  | some b =>
    match readGroups b.root {} with
    | none => .error .document
    | some (s, known) =>
      match b.keys.filter fun k => !known.contains k with
      | [] => s.check
      | unknown => .error (.unknownKeys unknown)

/-! ### Meaning -/

/-- How sources are compiled under settings. -/
def options (s : Settings) (registry : Builtins) : Options :=
  { registry
    limits := ⟨s.maxTokens.toNat, s.maxDepth.toNat⟩
    loopLimit := s.loopLimit.toNat
    functionName := s.functionName
    prune := s.pruneUnused }

/-- The path of the output of a source. -/
def outputPath (s : Settings) (source : String) : String := Path.withExtension s.extension source

end Settings

end Pine
