/-!
# Warnings

A warning reports a feature that the output does not fully honor; it never stops a compilation. For
each feature only the first warning is kept.
-/

namespace Pine

/-- How far a feature is from being supported. -/
inductive Severity where
  | unsupported
  | limited
  | deprecated
  /-- A grade of another tool, kept by its name. -/
  | other (name : String)
  deriving DecidableEq, Repr

namespace Severity

/-- The name of a grade. -/
def name : Severity → String
  | unsupported => "unsupported"
  | limited => "partial"
  | deprecated => "deprecated"
  | other name => name

/-- The grade with a name. -/
def ofName (s : String) : Severity :=
  match s with
  | "unsupported" => unsupported
  | "partial" => limited
  | "deprecated" => deprecated
  | s => other s

end Severity

/-- A warning. -/
structure Warning where
  /-- How far the feature is from being supported. -/
  severity : Severity
  /-- The feature. -/
  feature : String
  /-- What the warning says. -/
  message : String
  /-- The line of the source; a line that is not positive stands for none. -/
  line : Int
  deriving DecidableEq, Repr

/-- A warning in words. -/
def Warning.text (w : Warning) : String :=
  if 0 < w.line then s!"line {w.line}: {w.severity.name}: {w.message}"
  else s!"{w.severity.name}: {w.message}"

/-- The warnings of a run, in the order in which they arose. -/
structure Diagnostics where
  /-- The warnings. -/
  warnings : List Warning := []
  deriving Repr

namespace Diagnostics

/-- Whether a feature was reported. -/
def reports (d : Diagnostics) (feature : String) : Bool := d.warnings.any (·.feature = feature)

/-- One more warning, unless its feature was reported before. -/
def warn (d : Diagnostics) (w : Warning) : Diagnostics :=
  if d.reports w.feature then d else ⟨d.warnings ++ [w]⟩

theorem warn_of_reports {d : Diagnostics} {w : Warning} (h : d.reports w.feature = true) :
    d.warn w = d := by
  simp [warn, h]

end Diagnostics

end Pine
