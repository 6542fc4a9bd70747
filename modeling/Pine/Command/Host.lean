import Pine.Command.Path

/-!
# Hosts

A command talks to the world through a host: it reads and writes files, reads its input and prints.
The commands are written for any host, so that they run on files as well as on a tree in memory.
-/

namespace Pine

/-- What can be wrong with a path. -/
inductive FileFault where
  | missing
  | notDirectory
  | isDirectory
  | alreadyThere
  | nameTooLong
  /-- No path, because it holds a null character. -/
  | invalid
  /-- A fault that only the host can name. -/
  | other (text : String)
  deriving DecidableEq, Repr

/-- A fault in words. -/
def FileFault.text : FileFault → String
  | missing => "no such file or directory"
  | notDirectory => "not a directory"
  | isDirectory => "is a directory"
  | alreadyThere => "file exists"
  | nameTooLong => "file name too long"
  | invalid => "invalid argument"
  | other text => text

/-- An operation on a file that went wrong. -/
structure FileError where
  /-- The operation. -/
  operation : String
  /-- The path. -/
  path : String
  /-- What is wrong. -/
  fault : FileFault
  deriving DecidableEq, Repr

/-- An error in words. -/
def FileError.text (e : FileError) : String := s!"{e.operation} {e.path}: {e.fault.text}"

/-- What a path leads to. -/
inductive FileKind where
  | file
  | directory
  deriving DecidableEq, Repr

/-- The operations of a host. -/
structure Host (m : Type → Type) where
  /-- The directory at which relative paths start. -/
  here : m String
  /-- The whole standard input. -/
  input : m (List Char)
  /-- What a path leads to. -/
  kind : String → m (Except FileError FileKind)
  /-- The paths of all files below a directory; in each directory by name. -/
  filesBelow : String → m (Except FileError (List String))
  /-- The content of a file. -/
  read : String → m (Except FileError (List Char))
  /-- Replaces the content of a file, or makes it. -/
  write : String → String → m (Except FileError Unit)
  /-- Makes a directory in one that is there. -/
  makeDirectory : String → m (Except FileError Unit)
  /-- Prints to the standard output. -/
  print : String → m Unit
  /-- Prints to the standard error output. -/
  printError : String → m Unit

namespace Host

variable {m : Type → Type} [Monad m] (host : Host m)

/-- Makes a directory in one that is there, unless it is there itself. -/
def ensureDirectory (path : String) : m (Except FileError Unit) := do
  match ← host.makeDirectory path with
  | .ok () => return .ok ()
  | .error e =>
    match ← host.kind path with
    | .ok .directory => return .ok ()
    | _ => return .error e

/-- The text of a path in front of the slash that its last part follows. -/
def parentText (path : String) : String :=
  String.ofList
    (((path.toList.reverse.dropWhile (· = '/')).dropWhile (· ≠ '/')).drop 1).reverse

/-- Makes a directory and at most `fuel` of those that lead to it. -/
def makeLeading : Nat → String → m (Except FileError Unit)
  | 0, path => host.ensureDirectory path
  | fuel + 1, path => do
    match ← host.kind path with
    | .ok .directory => return .ok ()
    | .ok .file => return .error ⟨"mkdir", path, .notDirectory⟩
    | .error _ =>
      if parentText path = "" then host.ensureDirectory path
      else
        match ← makeLeading fuel (parentText path) with
        | .error e => return .error e
        | .ok () => host.ensureDirectory path

/-- Makes a directory and those that lead to it. -/
def makeDirectories (path : String) : m (Except FileError Unit) :=
  host.makeLeading path.length path

end Host

end Pine
