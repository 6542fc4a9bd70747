/-!
# Starts of texts

Dotted names are taken apart at their dots, and texts are compared by how they start.
-/

namespace Pine.Text

/-- Whether a text starts with another. -/
def startsWith (s start : String) : Bool := start.toList.isPrefixOf s.toList

/-- A text without `start` in front of it, if it starts so. -/
def dropStart (start s : String) : String :=
  if startsWith s start then String.ofList (s.toList.drop start.length) else s

/-- What stands before the first dot, or the whole text without one. -/
def beforeDot (s : String) : String := String.ofList (s.toList.takeWhile (· ≠ '.'))

/-- Whether a text has a dot. -/
def hasDot (s : String) : Bool := s.toList.any (· = '.')

/-- Names in ascending order of their code points. -/
def sorted (names : List String) : List String := names.mergeSort fun a b => !decide (b < a)

/-- A name joins a list unless it is there already. -/
def addName (name : String) (names : List String) : List String :=
  if name ∈ names then names else names ++ [name]

end Pine.Text
