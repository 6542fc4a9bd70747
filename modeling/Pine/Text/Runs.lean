/-!
# Sets of code points as runs

A set of code points is given by the distances from one boundary of its runs to the next: the first
code point of the first run, the length of the run, the length of the gap behind it, and so on.
-/

namespace Pine.Text

/-- Membership in the set whose gaps and runs have the listed lengths. -/
def inRuns : List Nat → Nat → Bool
  | gap :: length :: rest, c =>
    if c < gap then false else c - gap < length || inRuns rest (c - gap - length)
  | _, _ => false

end Pine.Text
