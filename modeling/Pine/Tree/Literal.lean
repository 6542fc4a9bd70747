import Pine.Number.Numeral
import Pine.Tree.Basic

/-!
# Literal values

The number that an expression spells out, possibly behind minus signs.
-/

namespace Pine.Expr

/-- The value of a number, or of a minus sign in front of a literal number. -/
def literal? : Expr → Option Binary64
  | number _ text => Binary64.ofText? text
  | unary _ .neg operand => operand.literal?.map Binary64.neg
  | _ => none

end Pine.Expr
