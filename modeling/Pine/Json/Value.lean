import Pine.Number.Style
import Pine.Text.Escape

/-!
# JSON values

Descriptions are handed to other tools as JSON, either on one line or indented by two blanks for
each level. Empty arrays and objects stay on one line.
-/

namespace Pine

mutual

/-- A JSON value. -/
inductive JsonValue where
  | null
  | bool (value : Bool)
  | integer (value : Int)
  | number (value : Binary64)
  | string (value : String)
  | array (items : List JsonValue)
  | object (fields : List JsonField)

/-- A field of a JSON object. -/
inductive JsonField where
  | mk (name : String) (value : JsonValue)

end

namespace JsonValue

/-- Numbers are written positionally from 10^-6 up to 10^21, and with an exponent otherwise. -/
def numberStyle : NumberStyle := ⟨-6, 21, 1⟩

/-- The text of a truth value. -/
def boolText (value : Bool) : String := if value then "true" else "false"

mutual

/-- The text of a value on one line. -/
def compact : JsonValue → String
  | null => "null"
  | bool value => boolText value
  | integer value => toString value
  | number value => numberStyle.write value
  | string value => Text.escaped value
  | array items => "[" ++ ",".intercalate (compactItems items) ++ "]"
  | object fields => "\x7b" ++ ",".intercalate (compactFields fields) ++ "\x7d"

/-- The texts of items on one line. -/
def compactItems : List JsonValue → List String
  | [] => []
  | v :: vs => v.compact :: compactItems vs

/-- The texts of fields on one line. -/
def compactFields : List JsonField → List String
  | [] => []
  | .mk name value :: fields => (Text.escaped name ++ ":" ++ value.compact) :: compactFields fields

end

/-- A new line at a level. -/
def newLine (level : Nat) : String := "\n" ++ String.ofList (List.replicate (2 * level) ' ')

/-- Parts on lines of their own between two marks. -/
def block (level : Nat) (first last : String) (parts : List String) : String :=
  if parts.isEmpty then first ++ last
  else
    first ++ newLine (level + 1) ++ ("," ++ newLine (level + 1)).intercalate parts ++
      newLine level ++ last

mutual

/-- The indented text of a value at a level. -/
def indentedAt (level : Nat) : JsonValue → String
  | null => "null"
  | bool value => boolText value
  | integer value => toString value
  | number value => numberStyle.write value
  | string value => Text.escaped value
  | array items => block level "[" "]" (indentedItems (level + 1) items)
  | object fields => block level "\x7b" "\x7d" (indentedFields (level + 1) fields)

/-- The indented texts of items. -/
def indentedItems (level : Nat) : List JsonValue → List String
  | [] => []
  | v :: vs => v.indentedAt level :: indentedItems level vs

/-- The indented texts of fields. -/
def indentedFields (level : Nat) : List JsonField → List String
  | [] => []
  | .mk name value :: fields =>
    (Text.escaped name ++ ": " ++ value.indentedAt level) :: indentedFields level fields

end

/-- The indented text of a value. -/
def indented (v : JsonValue) : String := v.indentedAt 0

end JsonValue

end Pine
