import Pine.Builtin.Registry
import Pine.Text.Fold

/-!
# Suggestions

For a name that no builtin has, a similar name is suggested: the nearest of the names that contain
all its letters in order, or else the nearest name of the same namespace, if it is near enough.
-/

namespace Pine

namespace Text

/-- The distances of a start of the first text, one letter longer than in `row`, to all starts of
the second text but the empty one; `left` is the distance to the start before. -/
def nextRow (a : Char) : List Char → List Nat → Nat → List Nat
  | b :: second, corner :: above :: row, left =>
    let d := min (min (above + 1) (left + 1)) (corner + if a = b then 0 else 1)
    d :: nextRow a second (above :: row) d
  | _, _, _ => []

/-- The least number of insertions, deletions and replacements that make one text of another. -/
def distance (first second : String) : Nat :=
  let t := second.toList
  let rows := first.toList.foldl (fun row a =>
    let left := row.headD 0 + 1
    left :: nextRow a t row left) (List.range (t.length + 1))
  rows.getLastD 0

/-- Whether a text contains the letters of another in order, both in folded form. -/
def containsInOrder (text letters : String) : Bool := (folded letters).isSublist (folded text)

/-- The first of the texts that are nearest to a text. -/
def nearest? (text : String) : List String → Option String
  | [] => none
  | s :: rest =>
    match nearest? text rest with
    | none => some s
    | some t => if distance text t < distance text s then some t else some s

end Text

namespace Registry

/-- The distance from which on a name is not suggested. -/
def tooFar : Nat := 4

/-- The name to suggest for an unknown name. -/
def suggestion? (r : Registry) (name : String) : Option String :=
  if !r.isListed then none
  else
    match Text.nearest? name (r.names.filter (Text.containsInOrder · name)) with
    | some similar => some similar
    | none =>
      let space := Text.beforeDot name ++ "."
      Text.nearest? name (r.names.filter fun n =>
        Text.startsWith n space && Text.distance name n < tooFar)

/-- The builtins of a registry. -/
def builtins (r : Registry) : Builtins := ⟨r.find?, r.suggestion?⟩

instance : Coe Registry Builtins := ⟨builtins⟩

end Registry

end Pine
