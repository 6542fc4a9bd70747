import Pine.Script.Basic

/-!
# The bodies of a script

A script has a body, and so have its functions, loops, branches and cases and the blocks inside of
its expressions. What holds of every one of these bodies holds *throughout* the script.

A statement *leaps* if it leaves or continues a loop around it. Functions and blocks with a value
keep their leaps, and so do loops, but choices do not. A switch of a script would catch a leap that
leaves a loop.
-/

namespace Pine

namespace Script

/-! ### Properties of all bodies -/

section Throughout

variable (P : List Stmt → Prop)

mutual

/-- Every body inside of an expression has a property. -/
def Expr.Throughout : Expr → Prop
  | .atom _ | .literal _ | .name _ => True
  | .member value _ | .history _ value | .series _ value | .input _ value | .plot _ value
  | .unary _ value | .paren value => value.Throughout
  | .call callee args => callee.Throughout ∧ ThroughoutExprs args
  | .binary _ left right => left.Throughout ∧ right.Throughout
  | .ternary cond yes no => cond.Throughout ∧ yes.Throughout ∧ no.Throughout
  | .array elements => ThroughoutExprs elements
  | .object properties => ThroughoutProperties properties
  | .block body => P body ∧ ThroughoutStmts body

/-- Every body inside of expressions has a property. -/
def ThroughoutExprs : List Expr → Prop
  | [] => True
  | e :: es => e.Throughout ∧ ThroughoutExprs es

/-- Every body inside of properties has a property. -/
def ThroughoutProperties : List Property → Prop
  | [] => True
  | .mk _ value :: properties => value.Throughout ∧ ThroughoutProperties properties

/-- Every body inside of a statement has a property. -/
def Stmt.Throughout : Stmt → Prop
  | .const _ value | .bind _ value | .bindTuple _ value | .assignTuple _ value
  | .restore _ _ value | .expr value | .ret value => value.Throughout
  | .assign target _ value => target.Throughout ∧ value.Throughout
  | .bindAll _ | .importLib .. | .cell .. | .carry _ | .store .. | .series .. | .record _
  | .accessor _ | .retVoid | .brk | .cont | .shim .. | .counter _ | .guard .. => True
  | .function _ _ body | .block body => P body ∧ ThroughoutStmts body
  | .ifElse cond yes otherwise =>
    cond.Throughout ∧ (P yes ∧ ThroughoutStmts yes) ∧ otherwise.Throughout
  | .whileLoop cond body | .forOf _ cond body | .forEntries _ _ cond body =>
    cond.Throughout ∧ P body ∧ ThroughoutStmts body
  | .forStep _ first _ last _ step body =>
    first.Throughout ∧ last.Throughout ∧ step.Throughout ∧ P body ∧ ThroughoutStmts body
  | .forEither _ _ first last body =>
    first.Throughout ∧ last.Throughout ∧ P body ∧ ThroughoutStmts body
  | .switch subject cases => subject.Throughout ∧ ThroughoutCases cases
  | .classDecl _ slots => ThroughoutSlots slots

/-- Every body inside of statements has a property. -/
def ThroughoutStmts : List Stmt → Prop
  | [] => True
  | s :: ss => s.Throughout ∧ ThroughoutStmts ss

/-- Every body of what follows a block of a choice has a property. -/
def Otherwise.Throughout : Otherwise → Prop
  | .nothing => True
  | .block body => P body ∧ ThroughoutStmts body
  | .elseIf cond body otherwise =>
    cond.Throughout ∧ (P body ∧ ThroughoutStmts body) ∧ otherwise.Throughout

/-- Every body of cases has a property. -/
def ThroughoutCases : List Case → Prop
  | [] => True
  | .test value body :: cases =>
    value.Throughout ∧ (P body ∧ ThroughoutStmts body) ∧ ThroughoutCases cases
  | .default body :: cases => (P body ∧ ThroughoutStmts body) ∧ ThroughoutCases cases

/-- Every body inside of fields has a property. -/
def ThroughoutSlots : List Slot → Prop
  | [] => True
  | .mk _ _ initial :: slots => initial.Throughout ∧ ThroughoutSlots slots

end

end Throughout

section

variable {P : List Stmt → Prop}

theorem throughoutExprs_iff {es : List Expr} :
    ThroughoutExprs P es ↔ ∀ e ∈ es, e.Throughout P := by
  induction es with
  | nil => simp [ThroughoutExprs]
  | cons e es ih => simp [ThroughoutExprs, ih]

theorem throughoutStmts_iff {ss : List Stmt} :
    ThroughoutStmts P ss ↔ ∀ s ∈ ss, s.Throughout P := by
  induction ss with
  | nil => simp [ThroughoutStmts]
  | cons s ss ih => simp [ThroughoutStmts, ih]

end

/-! ### Leaps -/

/-- The body of a case. -/
def Case.body : Case → List Stmt
  | .test _ body | .default body => body

/-- The bodies of what follows a block of a choice. -/
def Otherwise.bodies : Otherwise → List (List Stmt)
  | .nothing => []
  | .block body => [body]
  | .elseIf _ body otherwise => body :: otherwise.bodies

/-- A statement leaves or continues a loop around it. -/
inductive Stmt.Leaps : Stmt → Prop
  | brk : Leaps .brk
  | cont : Leaps .cont
  | yes {cond : Expr} {yes : List Stmt} {otherwise : Otherwise} {s : Stmt} (hs : s ∈ yes)
      (h : s.Leaps) : Leaps (.ifElse cond yes otherwise)
  | otherwise {cond : Expr} {yes body : List Stmt} {otherwise : Otherwise} {s : Stmt}
      (hbody : body ∈ otherwise.bodies) (hs : s ∈ body) (h : s.Leaps) :
      Leaps (.ifElse cond yes otherwise)
  | block {body : List Stmt} {s : Stmt} (hs : s ∈ body) (h : s.Leaps) : Leaps (.block body)
  | case {subject : Expr} {cases : List Case} {c : Case} {s : Stmt} (hc : c ∈ cases)
      (hs : s ∈ c.body) (h : s.Leaps) : Leaps (.switch subject cases)

/-! ### Loops -/

/-- The body of a loop. -/
def Stmt.loopBody? : Stmt → Option (List Stmt)
  | .whileLoop _ body | .forStep _ _ _ _ _ _ body | .forEither _ _ _ _ body | .forOf _ _ body
  | .forEntries _ _ _ body => some body
  | _ => none

/-- The expressions in the head of a loop. -/
def Stmt.header : Stmt → List Expr
  | .whileLoop e _ | .forOf _ e _ | .forEntries _ _ e _ => [e]
  | .forStep _ first _ last _ step _ => [first, last, step]
  | .forEither _ _ first last _ => [first, last]
  | _ => []

theorem Stmt.throughout_of_loopBody? {P : List Stmt → Prop} {s : Stmt} {body : List Stmt}
    (h : s.loopBody? = some body) (hheader : ∀ e ∈ s.header, e.Throughout P)
    (hbody : P body ∧ ThroughoutStmts P body) : s.Throughout P := by
  cases s <;> cases h <;> simp_all [Stmt.header, Stmt.Throughout]

/-- Whether a statement is neither a loop with its counter nor a switch. -/
def Stmt.isPlain : Stmt → Bool
  | .counter _ | .switch .. => false
  | s => s.loopBody?.isNone

end Script

/-- Every body of a script has a property. -/
def Script.Throughout (P : List Script.Stmt → Prop) (s : Script) : Prop :=
  P s.body ∧ Script.ThroughoutStmts P s.body

end Pine
