import Pine.Builtin.Standard
import Pine.Command.Flag
import Pine.Command.Host
import Pine.Json.Result
import Pine.Settings.Basic

/-!
# The build command

The build command compiles files, all sources below directories, or its standard input. Warnings and
errors go to the standard error output. A source that does not compile does not stop the others; a
file that cannot be read or written does.
-/

namespace Pine.Build

/-- The name under which the command prints messages. -/
def commandName : String := "pinejs"

/-- The settings file that is read if no other is named. -/
def settingsFile : String := "pinejs.toml"

/-- The extension of the sources that are found in directories. -/
def sourceExtension : String := ".pine"

/-- The flags of the command. -/
def flags : List Flag :=
  [⟨"config", .text, "path to a settings file (default: ./pinejs.toml when present)"⟩,
    ⟨"function", .text, "override output.function_name"⟩,
    ⟨"j", .integer, "number of files transpiled concurrently"⟩,
    ⟨"loop-limit", .integer, "override limits.loop_limit"⟩,
    ⟨"metadata", .switch, "also write the indicator metadata as JSON next to each output"⟩,
    ⟨"no-builtins", .switch, "pass builtin calls through unmapped"⟩,
    ⟨"no-prune", .switch, "keep functions that are never called"⟩,
    ⟨"out", .text, "directory for generated files (default: next to each source)"⟩,
    ⟨"validate", .switch, "check syntax only and write nothing"⟩]

/-! ### One source -/

/-- What became of one source. -/
structure Report where
  /-- The path of the source. -/
  path : String
  /-- The script and the description, if the source was compiled. -/
  compiled : Option Compiled := none
  /-- The warnings. -/
  warnings : List Warning := []
  /-- The error, if there was one. -/
  error : Option String := none

/-- Compiles or only reads a source. -/
def report (options : Options) (validateOnly : Bool) (path : String) (source : List Char) :
    Report :=
  if validateOnly then
    match Source.read options.limits source with
    | .ok _ => { path }
    | .error e => { path, error := some e.reason }
  else
    match compile options source with
    | .ok c => { path, compiled := some c, warnings := c.indicator.warnings }
    | .error e => { path, warnings := e.warnings, error := some e.message }

/-- A report as lines. -/
def Report.text (r : Report) : String :=
  String.join (r.warnings.map fun w => s!"{r.path}: {w.text}\n") ++
    (r.error.map fun e => s!"{r.path}: {e}\n").getD ""

/-- The number of sources with an error. -/
def failures (reports : List Report) : Nat := reports.countP (·.error.isSome)

/-! ### Settings -/

/-- Settings with the flags that override them. -/
def override (s : Settings) (f : Flags) : Settings :=
  let s := if 0 < f.integer "loop-limit" then { s with loopLimit := f.integer "loop-limit" } else s
  let s := if f.text "function" = "" then s else { s with functionName := f.text "function" }
  if f.isOn "no-prune" false then { s with pruneUnused := false } else s

/-- The path of the output of a source. -/
def target (s : Settings) (outDir path : String) : String :=
  Path.relocate (s.outputPath path) outDir

section

variable {m : Type → Type} [Monad m] (host : Host m)

/-- The settings of a file; an error is put into words. -/
def loadSettings (path : String) : m (Except (String × Option FileFault) Settings) := do
  match ← host.read path with
  | .error e => return .error (e.text, some e.fault)
  | .ok text =>
    match Settings.read text with
    | .error e => return .error (s!"{path}: {e.message}", none)
    | .ok s => return .ok s

/-- The settings that the flags name, or those of the standard settings file if there is one. -/
def findSettings (path : String) : m (Except String Settings) := do
  if path = "" then
    match ← loadSettings host settingsFile with
    | .error (_, some .missing) => return .ok {}
    | .error (message, _) => return .error message
    | .ok s => return .ok s
  else
    match ← loadSettings host path with
    | .error (message, _) => return .error message
    | .ok s => return .ok s

/-! ### Sources -/

/-- Whether a path has the extension of a source in upper or lower case. -/
def isSource (path : String) : Bool :=
  (Path.suffix path).toList.map Char.toLower = sourceExtension.toList

/-- The sources that one argument stands for; an error is put into words. -/
def expandOne (argument : String) : m (Except String (List String)) := do
  let full := Path.absolute (← host.here) argument
  match ← host.kind full with
  | .error e => return .error e.text
  | .ok .file => return .ok [full]
  | .ok .directory =>
    match ← host.filesBelow full with
    | .error e => return .error s!"scanning {argument}: {e.text}"
    | .ok files => return .ok (files.filter isSource)

/-- The sources that arguments stand for, behind those that are found already; each path once. -/
def expandSources (found : List String) : List String → m (Except String (List String))
  | [] => return .ok found
  | argument :: arguments => do
    match ← expandOne host argument with
    | .error e => return .error e
    | .ok paths => expandSources (paths.foldl (fun found p => Text.addName p found) found) arguments

/-! ### Outputs -/

/-- Writes the script of a source, and its description if asked to. -/
def writeOutput (target : String) (withMetadata : Bool) (c : Compiled) :
    m (Except String Unit) := do
  match ← host.write target c.script.text with
  | .error e => return .error s!"failed to write output file {Text.quote target}: {e.text}"
  | .ok () =>
    if withMetadata then
      let path := target ++ ".json"
      match ← host.write path c.indicator.json.indented with
      | .error e => return .error s!"failed to write metadata file {Text.quote path}: {e.text}"
      | .ok () => return .ok ()
    else return .ok ()

/-- How all sources of a run are treated. -/
structure Job where
  /-- The settings. -/
  settings : Settings
  /-- How sources are compiled. -/
  options : Options
  /-- Where outputs go, empty for next to each source. -/
  outDir : String
  /-- Whether sources are only read. -/
  validateOnly : Bool
  /-- Whether descriptions are written. -/
  withMetadata : Bool

/-- Compiles sources one after the other; `written` counts the outputs so far. -/
def compileAll (job : Job) (written : Nat) : List String → m (Except String (List Report))
  | [] => return .ok []
  | path :: paths => do
    let stop (message : String) : Except String (List Report) :=
      .error s!"{message} ({written} files written before the failure)"
    match ← host.read path with
    | .error e => return stop s!"failed to read input file {Text.quote path}: {e.text}"
    | .ok source =>
      let r := report job.options job.validateOnly path source
      match r.compiled with
      | none => return (← compileAll job written paths).map (r :: ·)
      | some c =>
        match ← writeOutput host (target job.settings job.outDir path) job.withMetadata c with
        | .error message => return stop message
        | .ok () => return (← compileAll job (written + 1) paths).map (r :: ·)

/-- Compiles sources after making the directory for outputs. -/
def runJob (job : Job) (paths : List String) : m (Except String (List Report)) := do
  if job.outDir = "" then compileAll host job 0 paths
  else
    match ← host.makeDirectories job.outDir with
    | .error e => return .error e.text
    | .ok () => compileAll host job 0 paths

/-! ### The command -/

/-- Stops with a message. -/
def fatal (message : String) : m Nat := do
  host.printError s!"{commandName}: {message}\n"
  return 1

/-- Compiles the standard input. -/
def runInput (options : Options) (validateOnly : Bool) : m Nat := do
  let r := report options validateOnly "<stdin>" (← host.input)
  host.printError r.text
  if r.error.isSome then return 1
  else
    host.print ((r.compiled.map (·.script.text)).getD "")
    return 0

/-- Compiles files and the sources below directories. -/
def runFiles (job : Job) (arguments : List String) : m Nat := do
  match ← expandSources host [] arguments with
  | .error message => fatal host message
  | .ok [] => fatal host s!"no {sourceExtension} files found"
  | .ok paths =>
    match ← runJob host job paths with
    | .error message => fatal host message
    | .ok reports =>
      host.printError (String.join (reports.map Report.text))
      if 0 < failures reports then
        host.printError s!"{failures reports} of {reports.length} files failed\n"
        return 1
      else
        if !job.validateOnly then host.print s!"transpiled {reports.length} files\n"
        return 0

/-- The command with its settings. -/
def runWith (f : Flags) (settings : Settings) : m Nat := do
  let registry : Builtins := if f.isOn "no-builtins" false then .empty else Registry.standard
  let options := settings.options registry
  let validateOnly := f.isOn "validate" false
  match f.rest with
  | [] =>
    host.printError "nothing to do: provide .pine files, directories, or - for stdin\n"
    host.printError (Flag.usage commandName flags)
    return 2
  | ["-"] => runInput host options validateOnly
  | arguments =>
    runFiles host
      { settings, options, validateOnly
        outDir := f.text "out"
        withMetadata := f.isOn "metadata" false } arguments

/-- The command. -/
def run (arguments : List String) : m Nat := do
  match Flag.parse flags arguments with
  | .error .help =>
    host.printError (Flag.usage commandName flags)
    return 0
  | .error e =>
    host.printError (e.message ++ "\n" ++ Flag.usage commandName flags)
    return 2
  | .ok f =>
    match ← findSettings host (f.text "config") with
    | .error message => fatal host message
    | .ok settings =>
      match (override settings f).check with
      | .error e => fatal host e.message
      | .ok settings => runWith host f settings

end

end Pine.Build
