import Pine.Settings.Document

/-!
# Tables of settings

The lines of a settings document build a tree of tables. A key is given a value once. A table that
exists only because of keys below it is implied and may still be opened; a table that was opened, or
a value in braces, may not. Through an array of tables a key leads to its last element.
-/

namespace Pine

mutual

/-- A value of a table. -/
inductive Setting where
  | integer (value : Int)
  | text (value : String)
  | bool (value : Bool)
  /-- A value that no setting can have: a fraction, a date, a time or an array. -/
  | other
  | table (fields : List SettingField)
  /-- An array of tables. -/
  | tables (elements : List (List SettingField))

/-- A key of a table with its value. -/
inductive SettingField where
  | mk (key : String) (value : Setting)

end

/-- A table. -/
abbrev Table := List SettingField

namespace Table

/-- The value of a key. -/
def get? : Table → String → Option Setting
  | [], _ => none
  | .mk k v :: fields, key => if k = key then some v else get? fields key

/-- Gives a key a value, in place of an earlier one. -/
def set : Table → String → Setting → Table
  | [], key, value => [.mk key value]
  | .mk k v :: fields, key, value =>
    if k = key then .mk k value :: fields else .mk k v :: set fields key value

/-- The table that a key leads to. -/
def reach? : Key → Table → Option Table
  | [], t => some t
  | k :: ks, t =>
    match t.get? k with
    | some (.table u) => reach? ks u
    | some (.tables us) => us.getLast?.bind (reach? ks)
    | _ => none

/-- Changes the table that a key leads to. -/
def modify (f : Table → Table) : Key → Table → Table
  | [], t => f t
  | k :: ks, t =>
    match t.get? k with
    | some (.table u) => t.set k (.table (modify f ks u))
    | some (.tables us) =>
      match us.getLast? with
      | some u => t.set k (.tables (us.dropLast ++ [modify f ks u]))
      | none => t
    | _ => t

/-- Gives a dotted key a value; the tables on the way are made if they are missing. -/
def insert? (value : Setting) (last : String) : Key → Table → Option Table
  | [], t => some (t.set last value)
  | k :: ks, t =>
    match t.get? k with
    | none => (insert? value last ks []).map fun u => t.set k (.table u)
    | some (.table u) => (insert? value last ks u).map fun u => t.set k (.table u)
    | some _ => none

end Table

/-- A tree of tables under construction. -/
structure Builder where
  /-- The tree. -/
  root : Table := []
  /-- The tables that are only implied. -/
  implied : List Key := []
  /-- The keys whose value is an array. -/
  arrays : List Key := []
  /-- The keys of tables and values in the order of the document. -/
  keys : List Key := []

namespace Builder

/-- Marks a table as implied. -/
def imply (b : Builder) (key : Key) : Builder := { b with implied := key :: b.implied }

/-- Takes back the mark of an implied table. -/
def confirm (b : Builder) (key : Key) : Builder := { b with implied := b.implied.filter (· ≠ key) }

/-- Notes whether the value of a key is an array. A key with an empty last part stands for the
table around it. -/
def note (b : Builder) (context : Key) (last : String) (isArray : Bool) : Builder :=
  let key :=
    match context ++ (if last = "" then [] else [last]) with
    | [] => [""]
    | key => key
  let others := b.arrays.filter (· ≠ key)
  { b with arrays := if isArray then key :: others else others }

/-- Gives a key a value. A value for a key that has one is only accepted for an array and for an
implied table, which stays as it is. -/
def setValue? (b : Builder) (context : Key) (last : String) (value : Setting) : Option Builder := do
  let key := context ++ [last]
  let t ← b.root.reach? context
  let set (b : Builder) := { b with root := b.root.modify (·.set last value) context }
  match t.get? last with
  | none => return set b
  | some _ =>
    if key ∈ b.arrays then return set (b.confirm key)
    else if key ∈ b.implied then return b.confirm key
    else none

/-- Makes sure that tables lead to a key; the missing ones are implied. -/
def establish? (b : Builder) (context : Key) : Key → Option Builder
  | [] => some b
  | k :: ks =>
    let key := context ++ [k]
    match (b.root.reach? context).bind (·.get? k) with
    | none =>
      establish? ({ b with root := b.root.modify (·.set k (.table [])) context }.imply key) key ks
    | some (.table _) | some (.tables _) => establish? b key ks
    | some _ => none

/-- Opens the table of a key. -/
def openTable? (b : Builder) (key : Key) : Option Builder := do
  let b ← b.establish? [] key.dropLast
  b.setValue? key.dropLast (key.getLastD "") (.table [])

/-- Opens a new element of the array of tables of a key. -/
def openElement? (b : Builder) (key : Key) : Option Builder := do
  let context := key.dropLast
  let last := key.getLastD ""
  let b ← b.establish? [] context
  let t ← b.root.reach? context
  let set (elements : List Table) :=
    { b with root := b.root.modify (·.set last (.tables elements)) context }
  match t.get? last with
  | none => return set [[]]
  | some (.tables elements) => return set (elements ++ [[]])
  | some _ => none

/-- Opens the tables that the front parts of a dotted key imply, one below the other. -/
def implyAll? (b : Builder) (context : Key) : Key → Option Builder
  | [] => some b
  | k :: ks => do
    let key := context ++ [k]
    let b ← (b.imply key).openTable? key
    b.implyAll? key ks

/-- One more key of the document. -/
def list (b : Builder) (key : Key) : Builder := { b with keys := b.keys ++ [key] }

mutual

/-- The setting of a value; tables in braces are also built into the tree, under the key that the
value is for. `isItem` tells that the value is an item of an array. -/
def value? (b : Builder) (context : Key) (last : String) (isItem : Bool) :
    Document.Literal → Option (Builder × Setting)
  | .integer n => some (b, .integer n)
  | .text s => some (b, .text s)
  | .bool v => some (b, .bool v)
  | .other => some (b, .other)
  | .array items => do
    let b ← items? (b.note context last true) context last items
    return (b, .other)
  | .table entries => do
    let key := context ++ [last]
    let b := b.imply key
    let b ← if isItem then b.openElement? key else b.openTable? key
    let (b, t) ← entries? b key [] entries
    return (b, .table t)

/-- Builds the tables in braces among the items of an array into the tree. -/
def items? (b : Builder) (context : Key) (last : String) :
    List Document.Literal → Option Builder
  | [] => some b
  | item :: items => do
    let (b, _) ← value? b context last true item
    items? b context last items

/-- The table of entries in braces, behind those that are read already. -/
def entries? (b : Builder) (context : Key) (t : Table) :
    List Document.Entry → Option (Builder × Table)
  | [] => some (b, t)
  | .mk key literal :: entries => do
    let inner := context ++ key.dropLast
    let last := key.getLastD ""
    let b ← b.implyAll? context key.dropLast
    let (b, value) ← value? (b.list (inner ++ [last])) inner last false literal
    let b ← b.setValue? inner last value
    let t ← t.insert? value last key.dropLast
    entries? (b.note inner last literal.isArray) context t entries

end

/-- A key with its value in a table. -/
def entry? (b : Builder) (context key : Key) (literal : Document.Literal) : Option Builder := do
  let inner := context ++ key.dropLast
  let last := key.getLastD ""
  let b ← b.implyAll? context key.dropLast
  let (b, value) ← value? (b.list (inner ++ [last])) inner last false literal
  let b ← b.setValue? inner last value
  return b.note inner last literal.isArray

/-- The tree of lines, behind those that are read already; `context` is the open table. -/
def lines? (b : Builder) (context : Key) : List Document.Line → Option Builder
  | [] => some b
  | .table key :: lines => do
    let b ← b.openTable? key
    lines? ((b.note key "" false).list key) key lines
  | .element key :: lines => do
    let b ← b.openElement? key
    lines? ((b.note key "" false).list key) key lines
  | .entry key literal :: lines => do
    let b ← b.entry? context key literal
    lines? b context lines

/-- The tree of a document. -/
def ofText? (text : List Char) : Option Builder :=
  (Document.lines? text).bind (lines? {} [])

end Builder

end Pine
