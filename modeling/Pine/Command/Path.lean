/-!
# Paths

Paths are texts with slashes between their parts. Cleaning a path removes what does not matter by
the text alone: repeated slashes, parts `.`, and parts `..` with the part in front of them.
-/

namespace Pine.Path

/-- Whether a path starts at the root. -/
def isRooted (path : List Char) : Bool := path.head? = some '/'

/-- The texts between slashes. -/
def parts : List Char → List (List Char)
  | [] => [[]]
  | c :: cs =>
    match c, parts cs with
    | '/', rest => [] :: rest
    | c, first :: rest => (c :: first) :: rest
    | c, [] => [[c]]

/-- Takes a part behind those that are kept, the last of them first. -/
def keep (rooted : Bool) (kept : List (List Char)) (part : List Char) : List (List Char) :=
  if part = [] || part = ['.'] then kept
  else if part = ['.', '.'] then
    match kept with
    | [] => if rooted then [] else [part]
    | last :: before => if last = ['.', '.'] then part :: kept else before
  else part :: kept

/-- Parts with slashes between them. -/
def joinParts : List (List Char) → List Char
  | [] => []
  | [p] => p
  | p :: ps => p ++ '/' :: joinParts ps

/-- The shortest path with the same meaning. -/
def cleanChars (path : List Char) : List Char :=
  let kept := (parts path).foldl (keep (isRooted path)) []
  let text := joinParts kept.reverse
  if isRooted path then '/' :: text else if text = [] then ['.'] else text

/-- The shortest path with the same meaning. -/
def clean (path : String) : String := String.ofList (cleanChars path.toList)

/-- A path inside of a directory. -/
def join (dir path : String) : String :=
  if dir = "" then (if path = "" then "" else clean path) else clean (dir ++ "/" ++ path)

/-- The last part of a path. -/
def base (path : String) : String :=
  if path = "" then "."
  else
    let name := ((path.toList.reverse.dropWhile (· = '/')).takeWhile (· ≠ '/')).reverse
    if name = [] then "/" else String.ofList name

/-- The last part of a path from its last dot on, or nothing without a dot. -/
def suffix (path : String) : String :=
  let last := path.toList.reverse.takeWhile (· ≠ '/')
  if '.' ∈ last then String.ofList ('.' :: (last.takeWhile (· ≠ '.')).reverse) else ""

/-- The directory that holds the last part of a path. -/
def dir (path : String) : String :=
  clean (String.ofList (path.toList.reverse.dropWhile (· ≠ '/')).reverse)

/-- A path from the root, where `here` is the directory at which other paths start. -/
def absolute (here path : String) : String :=
  if isRooted path.toList then clean path else join here path

/-- A path with another extension. -/
def withExtension (ext path : String) : String :=
  String.ofList (path.toList.take (path.length - (suffix path).length)) ++ ext

/-- A path moved into a directory; no directory leaves it where it is. -/
def relocate (path dir : String) : String := if dir = "" then path else join dir (base path)

end Pine.Path
