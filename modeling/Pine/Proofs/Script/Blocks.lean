import Pine.Proofs.Script.Capture

/-!
# Blocks of a script

A block must not declare a name twice. The blocks of a script are the body of the entry function,
the bodies of functions, loops, branches and cases, and the blocks inside of expressions; the head
of a loop counts as a block of its own. A block is described by the names that it declares by `let`,
`const` or `class` outside of the blocks that lie in it.

Every name that a script declares is made from a *label*: a name of the source, a name of the source
that has a series or a cell, or the number of a loop or of a switch. No two labels give one name, so
that it is enough to tell labels apart.
-/

namespace Pine

open List

namespace Script

/-! ### Declared names -/

/-- The names that a statement declares in the block around it. -/
def Stmt.declares : Stmt → List String
  | .const name _ | .bind name _ | .importLib name _ | .cell name _ | .restore name _ _
  | .classDecl name _ => [name]
  | .bindAll names | .bindTuple names _ => names
  | .series name _ => [seriesName name]
  | .counter loop => [loopName loop]
  | _ => []

/-- The names that statements declare in the block around them. -/
def declaredNames (stmts : List Stmt) : List String := stmts.flatMap Stmt.declares

@[simp] theorem declaredNames_nil : declaredNames [] = [] := rfl

@[simp] theorem declaredNames_cons (s : Stmt) (ss : List Stmt) :
    declaredNames (s :: ss) = s.declares ++ declaredNames ss := flatMap_cons

@[simp] theorem declaredNames_append (ss ts : List Stmt) :
    declaredNames (ss ++ ts) = declaredNames ss ++ declaredNames ts := flatMap_append

/-! ### Blocks -/

mutual

/-- The names declared by each block of an expression. -/
def Expr.blocks : Expr → List (List String)
  | .atom _ | .literal _ | .name _ => []
  | .member value _ | .history _ value | .series _ value | .input _ value | .plot _ value
  | .unary _ value | .paren value => value.blocks
  | .call callee args => callee.blocks ++ exprBlocks args
  | .binary _ left right => left.blocks ++ right.blocks
  | .ternary cond yes no => cond.blocks ++ yes.blocks ++ no.blocks
  | .array elements => exprBlocks elements
  | .object properties => propertyBlocks properties
  | .block body => declaredNames body :: stmtBlocks body

/-- The names declared by each block of expressions. -/
def exprBlocks : List Expr → List (List String)
  | [] => []
  | e :: es => e.blocks ++ exprBlocks es

/-- The names declared by each block of properties. -/
def propertyBlocks : List Property → List (List String)
  | [] => []
  | .mk _ value :: properties => value.blocks ++ propertyBlocks properties

/-- The names declared by each block inside of a statement. -/
def Stmt.blocks : Stmt → List (List String)
  | .const _ value | .bind _ value | .bindTuple _ value | .assignTuple _ value
  | .restore _ _ value | .expr value | .ret value => value.blocks
  | .assign target _ value => target.blocks ++ value.blocks
  | .bindAll _ | .importLib .. | .cell .. | .carry _ | .store .. | .series .. | .record _
  | .accessor _ | .retVoid | .brk | .cont | .shim .. | .counter _ | .guard .. => []
  | .function _ _ body | .block body => declaredNames body :: stmtBlocks body
  | .ifElse cond yes otherwise =>
    cond.blocks ++ declaredNames yes :: stmtBlocks yes ++ otherwise.blocks
  | .whileLoop cond body => cond.blocks ++ declaredNames body :: stmtBlocks body
  | .forStep name first _ last _ step body =>
    [name] :: first.blocks ++ last.blocks ++ step.blocks ++ declaredNames body :: stmtBlocks body
  | .forEither name loop first last body =>
    [name, directionName loop] :: first.blocks ++ last.blocks ++
      declaredNames body :: stmtBlocks body
  | .forOf item collection body =>
    [item] :: collection.blocks ++ declaredNames body :: stmtBlocks body
  | .forEntries index item collection body =>
    [index, item] :: collection.blocks ++ declaredNames body :: stmtBlocks body
  | .switch subject cases => subject.blocks ++ caseBlocks cases
  | .classDecl _ slots => slotBlocks slots

/-- The names declared by each block inside of statements. -/
def stmtBlocks : List Stmt → List (List String)
  | [] => []
  | s :: ss => s.blocks ++ stmtBlocks ss

/-- The names declared by each block of what follows a block of a choice. -/
def Otherwise.blocks : Otherwise → List (List String)
  | .nothing => []
  | .block body => declaredNames body :: stmtBlocks body
  | .elseIf cond body otherwise =>
    cond.blocks ++ declaredNames body :: stmtBlocks body ++ otherwise.blocks

/-- The names declared by each block of cases. -/
def caseBlocks : List Case → List (List String)
  | [] => []
  | .test value body :: cases =>
    value.blocks ++ declaredNames body :: stmtBlocks body ++ caseBlocks cases
  | .default body :: cases => declaredNames body :: stmtBlocks body ++ caseBlocks cases

/-- The names declared by each block of fields. -/
def slotBlocks : List Slot → List (List String)
  | [] => []
  | .mk _ _ initial :: slots => initial.blocks ++ slotBlocks slots

end

/-- The names declared by each block of a script. -/
def blocks (s : Script) : List (List String) := declaredNames s.body :: stmtBlocks s.body

@[simp] theorem stmtBlocks_append (ss ts : List Stmt) :
    stmtBlocks (ss ++ ts) = stmtBlocks ss ++ stmtBlocks ts := by
  induction ss with
  | nil => rfl
  | cons s ss ih => simp only [cons_append, stmtBlocks, ih, append_assoc]

theorem mem_exprBlocks {names : List String} {es : List Expr} :
    names ∈ exprBlocks es ↔ ∃ e ∈ es, names ∈ e.blocks := by
  induction es with
  | nil => simp [exprBlocks]
  | cons e es ih => simp [exprBlocks, ih]

/-- Two declared names differ, unless they come from one of the names `C` of the source. -/
def ApartBut (C : String → Prop) (a b : String) : Prop := a = b → ∃ x, C x ∧ a = safeName x

/-- No block declares a name twice, except for the names `C` of the source. -/
def Once (C : String → Prop) (blocks : List (List String)) : Prop :=
  ∀ names ∈ blocks, names.Pairwise (ApartBut C)

section Once

variable {C : String → Prop} {a b : String} {names : List String} {bs cs : List (List String)}

theorem ApartBut.of_ne (h : a ≠ b) : ApartBut C a b := fun heq => absurd heq h

theorem ApartBut.symm (h : ApartBut C a b) : ApartBut C b a := by
  rintro rfl
  exact h rfl

/-- A name that is declared twice is one of the exceptions. -/
theorem exists_of_one_lt_count (h : names.Pairwise (ApartBut C)) (hcount : 1 < names.count a) :
    ∃ x, C x ∧ a = safeName x := by
  have htwice : [a, a].Pairwise (ApartBut C) :=
    h.sublist (replicate_sublist_iff.2 hcount)
  exact (pairwise_cons.1 htwice).1 a (mem_singleton_self a) rfl

@[simp] theorem once_nil : Once C [] := nofun

@[simp] theorem once_cons : Once C (names :: bs) ↔ names.Pairwise (ApartBut C) ∧ Once C bs :=
  forall_mem_cons

@[simp] theorem once_append : Once C (bs ++ cs) ↔ Once C bs ∧ Once C cs := forall_mem_append

theorem once_exprBlocks {es : List Expr} : Once C (exprBlocks es) ↔ ∀ e ∈ es, Once C e.blocks := by
  simp only [Once, mem_exprBlocks]
  exact ⟨fun h e he names hn => h names ⟨e, he, hn⟩, fun h names ⟨e, he, hn⟩ => h e he names hn⟩

end Once

/-! ### Labels -/

/-- What a declared name is made from. -/
inductive Label where
  /-- A name of the source. -/
  | own (name : String)
  /-- The series of a name of the source. -/
  | series (name : String)
  /-- The cell of a persistent variable. -/
  | cell (name : String)
  /-- The counter of a loop. -/
  | loop (n : Nat)
  /-- The subject of a switch. -/
  | subject (n : Nat)
  deriving DecidableEq, Repr

namespace Label

/-- The name that is made from a label. -/
def text : Label → String
  | own name => safeName name
  | series name => seriesName (safeName name)
  | cell name => cellName name
  | loop n => loopName n
  | subject n => subjectName n

/-- How the names start that are made from labels other than names of the source. -/
def start? : Label → Option String
  | own _ => none
  | series _ => some "_series_"
  | cell _ => some "_var_"
  | loop _ => some "_loop"
  | subject _ => some "_switch"

theorem startsWith_text : {l : Label} → {start : String} → l.start? = some start →
    start ∈ madeUpStarts ∧ start ≠ safeStart ∧ Text.startsWith l.text start = true
  | own _, _, h => nomatch h
  | series name, _, rfl => ⟨by decide, by decide, startsWith_seriesName _⟩
  | cell name, _, rfl => ⟨by decide, by decide, startsWith_cellName _⟩
  | loop n, _, rfl => ⟨by decide, by decide, startsWith_loopName n⟩
  | subject n, _, rfl => ⟨by decide, by decide, startsWith_subjectName n⟩

/-- A name that is made up does not come from the source. -/
theorem text_ne_safeName {l : Label} {start : String} (h : l.start? = some start) (name : String) :
    safeName name ≠ l.text := by
  obtain ⟨hmem, hne, hstarts⟩ := startsWith_text h
  exact safeName_ne_of_startsWith hmem hne hstarts name

/-- Labels of one name start it alike. -/
theorem start?_eq_of_text_eq {a b : Label} (h : a.text = b.text) : a.start? = b.start? := by
  have hown {l m : Label} {start : String} (hl : l.start? = none) (hm : m.start? = some start) :
      l.text ≠ m.text := by
    cases l with
    | own name => exact text_ne_safeName hm name
    | _ => cases hl
  cases ha : a.start? with
  | none =>
    cases hb : b.start? with
    | none => rfl
    | some start => exact absurd h (hown ha hb)
  | some start =>
    cases hb : b.start? with
    | none => exact absurd h.symm (hown hb ha)
    | some start' =>
      obtain ⟨hmem, -, hstarts⟩ := startsWith_text ha
      obtain ⟨hmem', -, hstarts'⟩ := startsWith_text hb
      rw [start_unique hmem hmem' hstarts (h ▸ hstarts')]

theorem eq_of_append_toString {start : String} {m n : Nat}
    (h : start ++ toString m = start ++ toString n) : m = n :=
  eq_of_repr_eq ((String.append_right_inj _).1 h)

/-- Two labels differ, unless they are one of the names `C` of the source. -/
protected def ApartBut (C : String → Prop) (a b : Label) : Prop := a = b → ∃ x, C x ∧ a = own x

/-- **A declared name tells its label.** -/
theorem text_injective : Function.Injective text := by
  intro a b h
  have hstart := start?_eq_of_text_eq h
  cases a with
  | own name =>
    cases b with
    | own name' => exact congrArg own (safeName_injective h)
    | _ => simp [start?] at hstart
  | series name =>
    cases b with
    | series name' =>
      exact congrArg series (safeName_injective ((String.append_right_inj _).1 h))
    | _ => simp [start?] at hstart
  | cell name =>
    cases b with
    | cell name' => exact congrArg cell ((String.append_right_inj _).1 h)
    | _ => simp [start?] at hstart
  | loop n =>
    cases b with
    | loop n' => exact congrArg loop (eq_of_append_toString h)
    | _ => simp [start?] at hstart
  | subject n =>
    cases b with
    | subject n' => exact congrArg subject (eq_of_append_toString h)
    | _ => simp [start?] at hstart

/-- Labels that differ make names that differ. -/
theorem pairwise_text {C : String → Prop} {ls : List Label} (h : ls.Pairwise (Label.ApartBut C)) :
    (ls.map text).Pairwise (ApartBut C) := by
  refine pairwise_map.2 (h.imp fun hab heq => ?_)
  obtain ⟨x, hx, rfl⟩ := hab (text_injective heq)
  exact ⟨x, hx, rfl⟩

end Label

end Script

end Pine
