import Pine.Number.Integer
import Pine.Text.Quote

/-!
# Command line flags

Flags come before the other arguments. A flag starts with one or two dashes; a value follows behind
an equals sign or as the next argument. A switch needs no value. Two dashes alone end the flags.
-/

namespace Pine

/-- What values a flag takes. -/
inductive FlagKind where
  | switch
  | integer
  | text
  deriving DecidableEq, Repr

/-- A flag of a command. -/
structure Flag where
  /-- The name without dashes. -/
  name : String
  /-- What values it takes. -/
  kind : FlagKind
  /-- What it does. -/
  help : String

/-- The value of a flag. -/
inductive FlagValue where
  | switch (value : Bool)
  | integer (value : Int)
  | text (value : String)
  deriving DecidableEq, Repr

/-- Why arguments are not accepted. -/
inductive FlagError where
  /-- Not an error: the flags are to be listed. -/
  | help
  | shape (argument : String)
  | unknown (name : String)
  | noValue (name : String)
  | switchValue (value name : String)
  | integerValue (value name : String) (fault : IntegerFault)
  deriving DecidableEq, Repr

namespace FlagError

/-- A fault of a value in words. -/
def faultText : IntegerFault → String
  | .malformed => "parse error"
  | .outOfRange => "value out of range"

/-- An error in words. -/
def message : FlagError → String
  | help => ""
  | shape argument => s!"bad flag syntax: {argument}"
  | unknown name => s!"flag provided but not defined: -{name}"
  | noValue name => s!"flag needs an argument: -{name}"
  | switchValue value name => s!"invalid boolean value {Text.quote value} for -{name}: parse error"
  | integerValue value name fault =>
    s!"invalid value {Text.quote value} for flag -{name}: {faultText fault}"

end FlagError

/-- The values of flags and the other arguments. -/
structure Flags where
  /-- The values, the last ones first. -/
  values : List (String × FlagValue) := []
  /-- The other arguments. -/
  rest : List String := []

namespace Flags

/-- Whether a switch is on. -/
def isOn (f : Flags) (name : String) (absent : Bool) : Bool :=
  match f.values.lookup name with
  | some (.switch value) => value
  | _ => absent

/-- The value of an integer flag, zero if it is not given. -/
def integer (f : Flags) (name : String) : Int :=
  match f.values.lookup name with
  | some (.integer value) => value
  | _ => 0

/-- The value of a text flag, empty if it is not given. -/
def text (f : Flags) (name : String) : String :=
  match f.values.lookup name with
  | some (.text value) => value
  | _ => ""

end Flags

namespace Flag

/-- The truth value of a text. -/
def bool? (text : String) : Option Bool :=
  if text ∈ ["1", "t", "T", "TRUE", "true", "True"] then some true
  else if text ∈ ["0", "f", "F", "FALSE", "false", "False"] then some false
  else none

/-- The value of a flag in a text. -/
def read (flag : Flag) (text : String) : Except FlagError FlagValue :=
  match flag.kind with
  | .switch => ((bool? text).map .switch).elim (.error (.switchValue text flag.name)) .ok
  | .text => .ok (.text text)
  | .integer =>
    match Integer.read text with
    | .ok n => .ok (.integer n)
    | .error fault => .error (.integerValue text flag.name fault)

/-- The name of a flag and its value behind an equals sign, which is never the first character. -/
def splitName (text : List Char) : String × Option String :=
  let (name, rest) := (text.drop 1).span (· ≠ '=')
  (String.ofList (text.take 1 ++ name),
    match rest with
    | _ :: value => some (String.ofList value)
    | [] => none)

/-- What is written behind the dashes of an argument that is a flag. -/
def behindDashes? : List Char → Option (List Char)
  | '-' :: '-' :: cs => some cs
  | '-' :: c :: cs => some (c :: cs)
  | _ => none

/-- The name, the flag and the value of an argument behind its dashes. -/
def select (flags : List Flag) (argument : String) (text : List Char) :
    Except FlagError (Flag × Option String) :=
  if text.head?.all fun c => c = '-' || c = '=' then .error (.shape argument)
  else
    let (name, value) := splitName text
    match flags.find? (·.name = name) with
    | some flag => .ok (flag, value)
    | none => if name = "help" || name = "h" then .error .help else .error (.unknown name)

/-- Reads flags behind those that are read already. -/
def parseFrom (flags : List Flag) :
    List String → List (String × FlagValue) → Except FlagError Flags
  | [], values => .ok ⟨values, []⟩
  | argument :: rest, values =>
    match behindDashes? argument.toList with
    | none => .ok ⟨values, argument :: rest⟩
    | some text =>
      if argument = "--" then .ok ⟨values, rest⟩
      else do
        let (flag, given) ← select flags argument text
        match given, flag.kind with
        | some text, _ =>
          let value ← flag.read text
          parseFrom flags rest ((flag.name, value) :: values)
        | none, .switch => parseFrom flags rest ((flag.name, .switch true) :: values)
        | none, _ =>
          match rest with
          | [] => .error (.noValue flag.name)
          | text :: rest =>
            let value ← flag.read text
            parseFrom flags rest ((flag.name, value) :: values)

/-- The flags and the other arguments of a command. -/
def parse (flags : List Flag) (arguments : List String) : Except FlagError Flags :=
  parseFrom flags arguments []

/-- How the value of a flag is announced. -/
def kindText : FlagKind → String
  | .switch => ""
  | .integer => " int"
  | .text => " string"

/-- A listing of the flags of a command. -/
def usage (command : String) (flags : List Flag) : String :=
  s!"Usage of {command}:\n" ++
    String.join (flags.map fun f => s!"  -{f.name}{kindText f.kind}\n    \t{f.help}\n")

end Flag

end Pine
