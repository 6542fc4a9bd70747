import Pine.Text.Affix
import Pine.Text.Case
import Pine.Text.Utf8
import Pine.Tree.Args
import Pine.Tree.Literal

/-!
# Colors

Colors that are known before a script runs: literals, the named colors, a named color with a
transparency, and a color with literal components.
-/

namespace Pine

namespace Color

/-- The named colors. -/
def table : List (String × String) :=
  [("aqua", "#00BCD4"), ("black", "#363A45"), ("blue", "#2196F3"), ("fuchsia", "#E040FB"),
    ("gray", "#787B86"), ("green", "#4CAF50"), ("lime", "#00E676"), ("maroon", "#880E4F"),
    ("navy", "#311B92"), ("olive", "#808000"), ("orange", "#FF9800"), ("purple", "#9C27B0"),
    ("red", "#FF5252"), ("silver", "#B2B5BE"), ("teal", "#00897B"), ("white", "#FFFFFF"),
    ("yellow", "#FFEB3B")]

/-- The value of a color given as `red` or `color.red`. -/
def named? (name : String) : Option String := table.lookup (Text.dropStart "color." name)

/-- A color in upper case; each component of the short form `#RGB` is doubled. The short form is
told by its length of four bytes. -/
def normalize (text : String) : String :=
  let s := Text.upper text
  match Text.encode s with
  | [_, r, g, b] => String.ofList ('#' :: Text.decode [r, r, g, g, b, b])
  | _ => s

/-- A component in two upper case hexadecimal digits. -/
def hexByte (n : Int) : String :=
  let digits := (Nat.toDigits 16 n.natAbs).map Char.toUpper
  let digits := if digits.length < 2 then '0' :: digits else digits
  String.ofList (if n < 0 then '-' :: digits else digits)

/-- A literal component between 0 and 255. -/
def component? (e : Expr) : Option Int := do
  let f ← e.literal?
  if f.lt (.ofNat 0) || (Binary64.ofNat 255).lt f then none else return f.truncate

/-- A color of three components. -/
def rgb? (args : List Arg) : Option String := do
  let red ← component? (Args.find args "red" (some 0))
  let green ← component? (Args.find args "green" (some 1))
  let blue ← component? (Args.find args "blue" (some 2))
  return "#" ++ hexByte red ++ hexByte green ++ hexByte blue

end Color

mutual

/-- The color that an expression is known to have. -/
def Expr.color? : Expr → Option String
  | .color _ text => some (Color.normalize text)
  | .member _ (.name _ "color") property => Color.named? property
  | .call _ _ callee args _ =>
    match callee.path with
    | "color.new" =>
      match Args.index? args "color" (some 0) with
      | some i => argColor? i args
      | none => none
    | "color.rgb" => Color.rgb? args
    | _ => none
  | _ => none

/-- The color of the argument at a place. -/
def argColor? : Nat → List Arg → Option String
  | _, [] => none
  | 0, .mk _ value :: _ => value.color?
  | i + 1, _ :: args => argColor? i args

end

end Pine
