import Pine.Proofs.Script.Capture

/-!
# Keys of a script

The host keeps the series of a variable and the cell of a persistent variable under a key, which the
statement that makes the series or the cell holds. Several series of one name are told apart by a
number behind a mark, as are several cells.
-/

namespace Pine

namespace Script

/-! ### Numbered names -/

/-- A name with a number behind a mark; the first of a name goes without. -/
def numbered (mark : Char) (name : String) (n : Nat) : String :=
  if n = 1 then name else name ++ String.singleton mark ++ toString n

/-- A text that ends in a mark with a number behind it. -/
def IsNumbered (mark : Char) (text : String) : Prop :=
  ∃ (front : List Char) (n : Nat), text.toList = front ++ mark :: (toString n).toList

theorem toList_numbered (mark : Char) (name : String) (n : Nat) :
    (name ++ String.singleton mark ++ toString n).toList =
      name.toList ++ mark :: (toString n).toList := by
  simp [String.toList_append]

theorem not_isNumbered_of_notMem {mark : Char} {text : String} (h : mark ∉ text.toList) :
    ¬IsNumbered mark text := by
  rintro ⟨front, n, htext⟩
  rw [htext] at h
  exact h (List.mem_append_right _ (List.mem_cons_self ..))

/-- A name holds letters, digits and underscores only. -/
theorem notMem_of_isNameShaped {name : String} (h : isNameShaped name = true) {c : Char}
    (hc : Piece.isWordPart c = false) : c ∉ name.toList := by
  intro hmem
  unfold isNameShaped at h
  split at h
  · cases h
  · next d ds hname =>
    rw [Bool.and_eq_true, List.all_eq_true] at h
    rw [hname, List.mem_cons] at hmem
    obtain rfl | hmem := hmem
    · simp [Piece.isWordPart, h.1] at hc
    · simp [h.2 c hmem] at hc

/-- **A numbered name tells its name and its number**, among names that are not numbered by
themselves. -/
theorem numbered_inj {mark : Char} (hmark : mark.isDigit = false) {a b : String}
    (ha : ¬IsNumbered mark a) (hb : ¬IsNumbered mark b) {m n : Nat}
    (h : numbered mark a m = numbered mark b n) : a = b ∧ m = n := by
  have hdigits (n : Nat) : mark ∉ (toString n).toList := by
    intro hmem
    rw [isDigit_of_mem_repr hmem] at hmark
    cases hmark
  have hplain {a b : String} (ha : ¬IsNumbered mark a) (n : Nat) :
      a ≠ b ++ String.singleton mark ++ toString n :=
    fun heq => ha ⟨b.toList, n, heq ▸ toList_numbered mark b n⟩
  unfold numbered at h
  split at h
  · next hm =>
    split at h
    · next hn => exact ⟨h, hm.trans hn.symm⟩
    · exact absurd h (hplain ha n)
  · split at h
    · exact absurd h.symm (hplain hb m)
    · rw [← String.toList_inj, toList_numbered, toList_numbered] at h
      obtain ⟨hname, hnumber⟩ := eq_of_append_cons (hdigits m) (hdigits n) h
      exact ⟨String.toList_inj.1 hname, eq_of_repr_eq (String.toList_inj.1 hnumber)⟩

/-! ### Marks -/

/-- What is collected from a script: something for every key of a series or a cell, and for every
number of a loop counter. -/
structure Marks (ι : Type) where
  key : String → List ι
  counter : Nat → List ι

section Marks

variable {ι : Type} (m : Marks ι)

mutual

/-- The marks in the blocks of an expression. -/
def Expr.marks : Expr → List ι
  | .atom _ | .literal _ | .name _ => []
  | .member value _ | .history _ value | .series _ value | .input _ value | .plot _ value
  | .unary _ value | .paren value => value.marks
  | .call callee args => callee.marks ++ exprMarks args
  | .binary _ left right => left.marks ++ right.marks
  | .ternary cond yes no => cond.marks ++ yes.marks ++ no.marks
  | .array elements => exprMarks elements
  | .object properties => propertyMarks properties
  | .block body => stmtMarks body

/-- The marks of expressions. -/
def exprMarks : List Expr → List ι
  | [] => []
  | e :: es => e.marks ++ exprMarks es

/-- The marks of properties. -/
def propertyMarks : List Property → List ι
  | [] => []
  | .mk _ value :: properties => value.marks ++ propertyMarks properties

/-- The marks of a statement. -/
def Stmt.marks : Stmt → List ι
  | .series _ key | .cell _ key => m.key key
  | .counter n => m.counter n
  | .const _ value | .bind _ value | .bindTuple _ value | .assignTuple _ value
  | .restore _ _ value | .expr value | .ret value => value.marks
  | .assign target _ value => target.marks ++ value.marks
  | .bindAll _ | .importLib .. | .carry _ | .store .. | .record _ | .accessor _ | .retVoid
  | .brk | .cont | .shim .. | .guard .. => []
  | .function _ _ body | .block body => stmtMarks body
  | .ifElse cond yes otherwise => cond.marks ++ stmtMarks yes ++ otherwise.marks
  | .whileLoop cond body => cond.marks ++ stmtMarks body
  | .forStep _ first _ last _ step body =>
    first.marks ++ last.marks ++ step.marks ++ stmtMarks body
  | .forEither _ _ first last body => first.marks ++ last.marks ++ stmtMarks body
  | .forOf _ collection body | .forEntries _ _ collection body =>
    collection.marks ++ stmtMarks body
  | .switch subject cases => subject.marks ++ caseMarks cases
  | .classDecl _ slots => slotMarks slots

/-- The marks of statements. -/
def stmtMarks : List Stmt → List ι
  | [] => []
  | s :: ss => s.marks ++ stmtMarks ss

/-- The marks of what follows a block of a choice. -/
def Otherwise.marks : Otherwise → List ι
  | .nothing => []
  | .block body => stmtMarks body
  | .elseIf cond body otherwise => cond.marks ++ stmtMarks body ++ otherwise.marks

/-- The marks of cases. -/
def caseMarks : List Case → List ι
  | [] => []
  | .test value body :: cases => value.marks ++ stmtMarks body ++ caseMarks cases
  | .default body :: cases => stmtMarks body ++ caseMarks cases

/-- The marks of fields. -/
def slotMarks : List Slot → List ι
  | [] => []
  | .mk _ _ initial :: slots => initial.marks ++ slotMarks slots

end

attribute [local simp] Expr.marks exprMarks propertyMarks Stmt.marks stmtMarks Otherwise.marks
  caseMarks slotMarks

theorem exprMarks_append (es fs : List Expr) :
    exprMarks m (es ++ fs) = exprMarks m es ++ exprMarks m fs := by
  induction es with
  | nil => rfl
  | cons e es ih => simp [ih]

theorem stmtMarks_append (ss ts : List Stmt) :
    stmtMarks m (ss ++ ts) = stmtMarks m ss ++ stmtMarks m ts := by
  induction ss with
  | nil => rfl
  | cons s ss ih => simp [ih]

end Marks

/-- Keys are collected. -/
def Marks.keys : Marks String := ⟨fun key => [key], fun _ => []⟩

/-- Numbers of loop counters are collected. -/
def Marks.counters : Marks Nat := ⟨fun _ => [], fun n => [n]⟩

/-- The keys of the series and cells that a script makes. -/
def keys (s : Script) : List String := stmtMarks .keys s.body

/-- The numbers of the loop counters that a script declares. -/
def counters (s : Script) : List Nat := stmtMarks .counters s.body

end Script

end Pine
