import Pine.Command.Build
import Pine.Command.Stages

/-!
# The program

The command line program: the commands on the files of the machine. With `stages` as its first
argument it prints the stages of one source, otherwise it builds.
-/

namespace Pine.Machine

/-- The fault behind an error of the machine. -/
def fault : IO.Error → FileFault
  | .noFileOrDirectory .. => .missing
  | .alreadyExists .. => .alreadyThere
  | .inappropriateType .. => .notDirectory
  | e => .other (toString e)

/-- An action whose errors are those of an operation on a path. -/
def guarded {α : Type} (operation path : String) (action : IO α) : IO (Except FileError α) := do
  try
    return .ok (← action)
  catch e =>
    return .error ⟨operation, path, fault e⟩

/-- The kind of what a path leads to. -/
def kindOf (path : String) : IO FileKind := do
  let info ← ((← IO.currentDir) / path).metadata
  return if info.type == .dir then .directory else .file

/-- The kind of what a path leads to, or why there is none. -/
def kind (path : String) : IO (Except FileError FileKind) := guarded "stat" path (kindOf path)

/-- The paths of all files below a directory. -/
partial def filesBelow (path : String) : IO (List String) := do
  let entries ← ((← IO.currentDir) / path).readDir
  let names := (entries.toList.map (·.fileName)).mergeSort fun a b => !decide (b < a)
  let found ← names.mapM fun name => do
    let inner := Path.join path name
    match ← kindOf inner with
    | .file => return [inner]
    | .directory => filesBelow inner
  return found.flatten

/-- The content of a file. -/
def read (path : String) : IO (Except FileError (List Char)) := do
  match ← kind path with
  | .ok .directory => return .error ⟨"read", path, .isDirectory⟩
  | _ => guarded "open" path do return Text.decode (← IO.FS.readBinFile path).toList

/-- Replaces the content of a file, or makes it. -/
def write (path content : String) : IO (Except FileError Unit) := do
  match ← kind path with
  | .ok .directory => return .error ⟨"open", path, .isDirectory⟩
  | _ => guarded "open" path (IO.FS.writeFile path content)

/-- The whole standard input. -/
def readInput : IO (List Char) := do
  return Text.decode (← (← IO.getStdin).readBinToEnd).toList

/-- The host that works on the files of the machine. -/
def host : Host IO where
  here := return (← IO.currentDir).toString
  input := readInput
  kind := kind
  filesBelow path := guarded "open" path (filesBelow path)
  read := read
  write := write
  makeDirectory path := guarded "mkdir" path (IO.FS.createDir path)
  print text := IO.print text
  printError text := IO.eprint text

/-- The command that arguments select. -/
def run : List String → IO Nat
  | "stages" :: arguments => Stages.run host arguments
  | arguments => Build.run host arguments

end Pine.Machine

/-- The program. -/
def main (arguments : List String) : IO UInt32 := do
  return (← Pine.Machine.run arguments).toUInt32
