import Pine.Builtin.Standard
import Pine.Command.Flag
import Pine.Command.Host
import Pine.Json.Result

/-!
# The stages command

The stages command prints what every stage of the compiler makes of one source: its tokens, its
tree, its description and its script. Nothing is dropped from the program.
-/

namespace Pine.Stages

/-- The name of the command in its usage. -/
def commandName : String := "pinec"

/-- The flags of the command. -/
def flags : List Flag := [⟨"tokens", .switch, "print the token stream (default true)"⟩]

/-- The source that is used if no file is named. -/
def sample : String :=
  "//@version=5\nindicator(\"Demo\", overlay=true)\nlen = input.int(14, \"Length\")\n" ++
    "avg = ta.sma(close, len)\nplot(avg, \"SMA\", color.orange)\n"

/-- Lines with two blanks in front. -/
def indentLines (lines : List String) : String :=
  String.join (lines.map fun l => "  " ++ l ++ "\n")

/-- The source and its version. -/
def sourceText (source : List Char) : String :=
  "Source:\n" ++ String.ofList source ++ "\n" ++
    ((Source.version? source).map fun v => s!"Version: {v}\n\n").getD ""

/-- The tokens. -/
def tokensText (tokens : List Token) : String :=
  s!"Tokens ({tokens.length})\n" ++ indentLines (tokens.map Token.describe) ++ "\n"

/-- The tree. -/
def treeText (program : Program) : String := "AST\n" ++ indentLines (stmtTexts program) ++ "\n"

/-- The description. -/
def descriptionText (indicator : Indicator) : String :=
  "Metadata\n" ++ indicator.json.indented ++ "\n\n"

/-- The script. -/
def scriptText (script : Script) : String := "Generated JavaScript\n" ++ script.text ++ "\n"

/-- The warnings, if there are any. -/
def warningsText (warnings : List Warning) : String :=
  if warnings.isEmpty then "" else "Warnings\n" ++ indentLines (warnings.map Warning.text)

section

variable {m : Type → Type} [Monad m] (host : Host m)

/-- Prints the stages of a program. -/
def runProgram (program : Program) : m Nat := do
  host.print (treeText program)
  let program := program.keyed
  let (indicator, d) := Indicator.ofProgram program {}
  host.print (descriptionText indicator)
  match program.lower { registry := Registry.standard } indicator d with
  | (.error e, _) =>
    host.printError s!"codegen error: {e.text}\n"
    return 1
  | (.ok script, d) =>
    host.print (scriptText script ++ warningsText d.warnings)
    return 0

/-- Prints the stages of a source. -/
def runSource (showTokens : Bool) (source : List Char) : m Nat := do
  let source := Source.normalize source
  host.print (sourceText source)
  let lexed := Token.lex 0 source
  match lexed.error with
  | some e =>
    host.printError s!"lex error: {e.message}\n"
    return 1
  | none =>
    if showTokens then host.print (tokensText lexed.tokens)
    let parsed := Program.parse .standard lexed.tokens
    if parsed.errors.isEmpty then runProgram host parsed.program
    else
      host.printError (String.join (parsed.errors.map fun e => s!"parse error: {e.text}\n"))
      return 1

/-- The command. -/
def run (arguments : List String) : m Nat := do
  match Flag.parse flags arguments with
  | .error .help =>
    host.printError (Flag.usage commandName flags)
    return 0
  | .error e =>
    host.printError (e.message ++ "\n" ++ Flag.usage commandName flags)
    return 2
  | .ok f =>
    let showTokens := f.isOn "tokens" true
    match f.rest with
    | [] => runSource host showTokens sample.toList
    | path :: _ =>
      match ← host.read path with
      | .error e =>
        host.printError s!"read error: {e.text}\n"
        return 1
      | .ok source => runSource host showTokens source

end

end Pine.Stages
