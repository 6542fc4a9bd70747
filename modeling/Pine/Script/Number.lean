import Pine.Number.Numeral
import Pine.Number.Style

/-!
# Numbers of scripts

A number of the source is written by its value: leading zeros and other spellings of one value
disappear. A number without a fraction is written positionally below 10^21, any other number
between 10^-4 and 10^6; the rest has an exponent of at least two digits.
-/

namespace Pine.Script

/-- How a number is written. -/
def numberStyle (f : Binary64) : NumberStyle := ⟨-4, if f.isInteger then 21 else 6, 2⟩

/-- The text of a number; a spelling without a value is not a number. -/
def numberText (spelling : String) : String :=
  match Binary64.ofText? spelling with
  | some f => (numberStyle f).write f
  | none => "NaN"

end Pine.Script
