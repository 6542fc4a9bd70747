import Pine.Script.Basic

/-!
# How control leaves statements

Every path of control through the statements of a script leaves them in one of five ways: at their
end, by a return with or without a value, or by a jump that a loop or a switch around them catches.
Which conditions hold is not looked at: both branches of a choice count, and so does a loop without
a round. Statements behind one that is never left at its end do not count.
-/

namespace Pine.Script

/-! ### Exits -/

/-- A way in which control leaves a statement. -/
inductive Exit where
  /-- At its end. -/
  | next
  /-- By a return with a value. -/
  | value
  /-- By a return without a value. -/
  | void
  /-- Out of the innermost loop or switch. -/
  | brk
  /-- To the next round of the innermost loop. -/
  | cont
  deriving DecidableEq, Repr

/-- The exits that no loop catches. -/
def Exit.isReturn : Exit → Bool
  | value | void => true
  | _ => false

/-- A switch catches what leaves it and nothing else. -/
def Exit.outOfSwitch : Exit → Exit
  | brk => next
  | x => x

/-- A case for all other values. -/
def Case.isDefault : Case → Bool
  | .default _ => true
  | .test .. => false

mutual

/-- The ways in which a statement can be left. -/
def Stmt.exits : Stmt → List Exit
  | .ret _ => [.value]
  | .retVoid => [.void]
  | .brk => [.brk]
  | .cont => [.cont]
  | .ifElse _ yes otherwise => stmtsExits yes ++ otherwise.exits
  | .block body => stmtsExits body
  | .whileLoop _ body | .forStep _ _ _ _ _ _ body | .forEither _ _ _ _ body | .forOf _ _ body
  | .forEntries _ _ _ body => .next :: (stmtsExits body).filter Exit.isReturn
  | .switch _ cases =>
    (if cases.any Case.isDefault then [] else [.next]) ++ (caseExits cases).map Exit.outOfSwitch
  | _ => [.next]

/-- The ways in which statements in a row can be left. -/
def stmtsExits : List Stmt → List Exit
  | [] => [.next]
  | s :: ss => s.exits.filter (· ≠ .next) ++ if .next ∈ s.exits then stmtsExits ss else []

/-- The ways in which the other branches of a choice can be left. -/
def Otherwise.exits : Otherwise → List Exit
  | .nothing => [.next]
  | .block body => stmtsExits body
  | .elseIf _ body otherwise => stmtsExits body ++ otherwise.exits

/-- The ways in which the bodies of cases can be left. -/
def caseExits : List Case → List Exit
  | [] => []
  | .test _ body :: cases | .default body :: cases => stmtsExits body ++ caseExits cases

end

/-! ### Statements in a row -/

theorem mem_stmtsExits_cons {x : Exit} {s : Stmt} {ss : List Stmt} :
    x ∈ stmtsExits (s :: ss) ↔
      x ∈ s.exits ∧ x ≠ .next ∨ .next ∈ s.exits ∧ x ∈ stmtsExits ss := by
  rw [stmtsExits]
  by_cases h : .next ∈ s.exits <;> simp [h]

/-- **Statements in a row** are left where the first ones are, other than at their end, and where
the others are if the first ones can be left at their end. -/
theorem mem_stmtsExits_append {x : Exit} {ts : List Stmt} : {ss : List Stmt} →
    (x ∈ stmtsExits (ss ++ ts) ↔
      x ∈ stmtsExits ss ∧ x ≠ .next ∨ .next ∈ stmtsExits ss ∧ x ∈ stmtsExits ts)
  | [] => by simp [stmtsExits]
  | s :: ss => by
    rw [List.cons_append, mem_stmtsExits_cons, mem_stmtsExits_cons, mem_stmtsExits_cons,
      mem_stmtsExits_append]
    by_cases h : .next ∈ s.exits <;> simp [h, or_and_right, and_or_left, or_assoc]

/-- A statement on its own. -/
theorem mem_stmtsExits_singleton {x : Exit} {s : Stmt} : x ∈ stmtsExits [s] ↔ x ∈ s.exits := by
  rw [mem_stmtsExits_cons, stmtsExits, List.mem_singleton]
  by_cases h : x = .next <;> simp [h]

/-- Statements none of which jumps are left at their end. -/
theorem stmtsExits_of_forall {ss : List Stmt} (h : ∀ s ∈ ss, s.exits = [.next]) :
    stmtsExits ss = [.next] := by
  induction ss with
  | nil => rfl
  | cons s ss ih =>
    obtain ⟨hs, hss⟩ := List.forall_mem_cons.1 h
    rw [stmtsExits, hs, ih hss]
    rfl

end Pine.Script
