import Pine.Indicator.Survey
import Pine.Lowering.Program
import Pine.Reading
import Pine.Script.Text
import Pine.Tree.Keys
import Pine.Tree.Live

/-!
# Compiling

A source is compiled by reading it, dropping the functions that are never called, describing the
program as an indicator and lowering it to a script. A source that is readable can be compiled.
-/

namespace Pine

/-- How a source is compiled. -/
structure Options where
  /-- The builtins. -/
  registry : Builtins := .empty
  /-- Ceilings on the work of reading. -/
  limits : Limits := .standard
  /-- The greatest number of rounds of a loop, zero for the standard one. -/
  loopLimit : Nat := Lowering.standardLoopLimit
  /-- The name of the entry function. -/
  functionName : String := Lowering.standardFunctionName
  /-- Whether functions that are never called are dropped. -/
  prune : Bool := true
  /-- The language version that a source names. -/
  version? : List Char → Option Nat := Source.version?

/-- Why a source was not compiled. -/
inductive Failure where
  /-- The entry function cannot have the name. -/
  | functionName (name : String)
  /-- The source is not readable. -/
  | reading (error : ReadError)
  /-- The program has no script; its description and the warnings are known. -/
  | lowering (error : InternalError) (indicator : Indicator) (warnings : List Warning)

namespace Failure

/-- A failure in words. -/
def message : Failure → String
  | functionName name => s!"invalid function name {Text.quote name}"
  | reading e => e.message
  | lowering e _ _ => s!"generate: {e.text}"

/-- The line of a failure, zero if there is none. -/
def line : Failure → Int
  | functionName _ => 0
  | reading e => e.line
  | lowering e _ _ => e.pos.line

/-- The column of a failure, zero if there is none. -/
def column : Failure → Int
  | functionName _ => 0
  | reading e => e.column
  | lowering e _ _ => e.pos.column

/-- The description, if it is known. -/
def indicator? : Failure → Option Indicator
  | lowering _ i _ => some i
  | _ => none

/-- The warnings, if there are any to tell. -/
def warnings : Failure → List Warning
  | lowering _ _ ws => ws
  | _ => []

end Failure

/-- What compiling gives. The description holds all warnings. -/
structure Compiled where
  /-- The script. -/
  script : Script
  /-- The description. -/
  indicator : Indicator

/-- The first language version that is not deprecated. -/
def firstCurrentVersion : Nat := 5

/-- The warnings about a language version. -/
def versionDiagnostics (version : Option Nat) : Diagnostics :=
  match version with
  | some v =>
    if v < firstCurrentVersion then
      Diagnostics.warn {} ⟨.deprecated, "@version",
        s!"version {v} scripts are deprecated; some builtins may not map", 1⟩
    else {}
  | none => {}

/-- Compiles the program of a source in a language version. -/
def Program.compile (options : Options) (version : Option Nat) (program : Program) :
    Except Failure Compiled :=
  let program := (if options.prune then program.prune else program).keyed
  let (described, d) := Indicator.ofProgram program (versionDiagnostics version)
  let indicator := { described with version := version.getD 0 }
  match program.lower ⟨options.registry, options.loopLimit, options.functionName⟩ indicator d with
  | (.ok script, d) => .ok ⟨script, { indicator with warnings := d.warnings }⟩
  | (.error e, d) => .error (.lowering e indicator d.warnings)

/-- Compiles a source. -/
def compile (options : Options) (source : List Char) : Except Failure Compiled :=
  if Script.isFunctionName options.functionName then
    let source := Source.normalize source
    match Source.read options.limits source with
    | .error e => .error (.reading e)
    | .ok program => program.compile options (options.version? source)
  else .error (.functionName options.functionName)

end Pine
