import Pine.Command.Host

/-!
# File trees

A tree of files and directories in memory, and the host that works on it. Paths lead through the
tree part by part: every part but the last must be a directory, also in front of `.` and `..`.
-/

namespace Pine

/-- A file with its content, or a directory. -/
inductive FileNode where
  | file (content : List Char)
  | directory
  deriving DecidableEq, Repr

/-- Files and directories by the parts of their paths. -/
structure FileTree where
  /-- The path of the directory that the tree fills. -/
  root : String
  /-- What is in the tree. -/
  entries : List (List String × FileNode) := []

namespace FileTree

/-- What a list of parts leads to. -/
def find? (t : FileTree) (parts : List String) : Option FileNode :=
  if parts = [] then some .directory else t.entries.lookup parts

/-- Puts a file or directory at a place. -/
def put (t : FileTree) (parts : List String) (node : FileNode) : FileTree :=
  { t with entries := (parts, node) :: t.entries.filter (·.1 ≠ parts) }

/-- Makes the directories that lead to a place, and the place itself if it is not there. -/
def addDirectories (t : FileTree) (done : List String) : List String → FileTree
  | [] => t
  | part :: rest =>
    let here := done ++ [part]
    addDirectories (if (t.find? here).isSome then t else t.put here .directory) here rest

/-- The parts of a path as texts. -/
def partsOf (path : String) : List String := (Path.parts path.toList).map String.ofList

/-- A tree with files by their relative paths; a path with a slash at its end is a directory. -/
def ofFiles (root : String) (files : List (String × String)) : FileTree :=
  files.foldl (fun t (path, content) =>
    let parts := partsOf path
    if parts.getLast? = some "" then t.addDirectories [] parts.dropLast
    else (t.addDirectories [] parts.dropLast).put parts (.file content.toList)) { root }

/-- The files by their relative paths. -/
def files (t : FileTree) : List (String × List Char) :=
  t.entries.filterMap fun (parts, node) =>
    match node with
    | .file content => some ("/".intercalate parts, content)
    | .directory => none

/-! ### Paths -/

/-- The greatest number of bytes of one part of a path. -/
def longestName : Nat := 255

/-- The greatest number of bytes of a path. -/
def longestPath : Nat := 4095

/-- Follows the parts of a path from a place. Nothing is known of what lies outside of the tree, so
a path that leaves it leads nowhere. -/
def follow (t : FileTree) (place : List String) : List String → Except FileFault (List String)
  | [] => .ok place
  | part :: rest =>
    match t.find? place with
    | none => .error .missing
    | some (.file _) => .error .notDirectory
    | some .directory =>
      if part = "" || part = "." then follow t place rest
      else if part = ".." then
        if place = [] then .error .missing else follow t place.dropLast rest
      else if longestName < part.utf8ByteSize then .error .nameTooLong
      else follow t (place ++ [part]) rest

/-- The parts of a path below the root of the tree. An empty path leads nowhere. -/
def relative? (t : FileTree) (path : String) : Option (List String) :=
  let root := partsOf t.root
  let parts := partsOf path
  if path = "" then none
  else if root.isPrefixOf parts then some (parts.drop root.length)
  else if Path.isRooted path.toList then none
  else some parts

/-- The place that a path leads to; there may be nothing there. -/
def locate (t : FileTree) (path : String) : Except FileFault (List String) :=
  if path.toList.contains (Char.ofNat 0) then .error .invalid
  else if longestPath < path.utf8ByteSize then .error .nameTooLong
  else
    match t.relative? path with
    | some parts => t.follow [] parts
    | none => .error .missing

/-- What a path leads to. -/
def look (t : FileTree) (path : String) : Except FileFault FileNode :=
  match t.locate path with
  | .error fault => .error fault
  | .ok parts =>
    match t.find? parts with
    | some node => .ok node
    | none => .error .missing

/-! ### Operations -/

/-- The kind of what a path leads to. -/
def kind (t : FileTree) (path : String) : Except FileError FileKind :=
  match t.look path with
  | .ok (.file _) => .ok .file
  | .ok .directory => .ok .directory
  | .error fault => .error ⟨"stat", path, fault⟩

/-- The content of a file. -/
def read (t : FileTree) (path : String) : Except FileError (List Char) :=
  match t.look path with
  | .ok (.file content) => .ok content
  | .ok .directory => .error ⟨"read", path, .isDirectory⟩
  | .error fault => .error ⟨"open", path, fault⟩

/-- A path without slashes at its end. -/
def withoutSlashes (path : String) : String :=
  String.ofList (path.toList.reverse.dropWhile (· = '/')).reverse

/-- Replaces the content of a file, or makes it. A path with a slash at its end can only be that of
a directory. -/
def write (t : FileTree) (path content : String) : Except FileError FileTree :=
  let name := withoutSlashes path
  match t.locate name with
  | .error fault => .error ⟨"open", path, fault⟩
  | .ok parts =>
    if name ≠ path ∨ t.find? parts = some .directory then .error ⟨"open", path, .isDirectory⟩
    else .ok (t.put parts (.file content.toList))

/-- The paths of all files below a directory; in each directory by name. -/
def filesBelow (t : FileTree) (path : String) : Except FileError (List String) :=
  match t.locate path with
  | .error fault => .error ⟨"lstat", path, fault⟩
  | .ok place =>
    let below := t.entries.filterMap fun (parts, node) =>
      match node with
      | .file _ => if place.isPrefixOf parts then some (parts.drop place.length) else none
      | .directory => none
    let sorted := below.mergeSort fun a b => !decide (b < a)
    .ok (sorted.map fun parts => Path.join path ("/".intercalate parts))

/-- Makes a directory in one that is there. -/
def makeDirectory (t : FileTree) (path : String) : Except FileError FileTree :=
  match t.locate (withoutSlashes path) with
  | .error fault => .error ⟨"mkdir", path, fault⟩
  | .ok parts =>
    if (t.find? parts).isSome then .error ⟨"mkdir", path, .alreadyThere⟩
    else .ok (t.put parts .directory)

end FileTree

/-- A tree with an input and with what was printed. -/
structure Desk where
  /-- The files. -/
  tree : FileTree
  /-- The standard input. -/
  input : List Char := []
  /-- What was printed to the standard output. -/
  output : String := ""
  /-- What was printed to the standard error output. -/
  errors : String := ""

namespace Desk

/-- An operation that changes the tree unless it fails. -/
def change (f : FileTree → Except FileError FileTree) : StateM Desk (Except FileError Unit) := do
  match f (← get).tree with
  | .error e => return .error e
  | .ok tree =>
    modify fun d => { d with tree }
    return .ok ()

/-- The host that works on a tree in memory. -/
def host : Host (StateM Desk) where
  here := return (← get).tree.root
  input := return (← get).input
  kind path := return (← get).tree.kind path
  filesBelow path := return (← get).tree.filesBelow path
  read path := return (← get).tree.read path
  write path content := change (·.write path content)
  makeDirectory path := change (·.makeDirectory path)
  print text := modify fun d => { d with output := d.output ++ text }
  printError text := modify fun d => { d with errors := d.errors ++ text }

end Desk

end Pine
