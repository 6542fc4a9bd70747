import Pine.Grammar.Expression
import Pine.Tree.Literal

/-!
# Trees at other positions

Moving every position of a tree by a function on positions keeps its shape, its text and its
literal values. Two trees are the same up to positions if they agree after all positions are made
one.
-/

namespace Pine

/-- The position some lines further down. -/
def Pos.below (lines : Nat) (p : Pos) : Pos := ⟨p.line + lines, p.column⟩

/-- An error at another position. -/
def ParseError.relocate (move : Pos → Pos) (e : ParseError) : ParseError :=
  { e with line := (move ⟨e.line, e.column⟩).line, column := (move ⟨e.line, e.column⟩).column }

/-! ### Trees -/

mutual

/-- An expression with moved positions. -/
def Expr.relocate (move : Pos → Pos) : Expr → Expr
  | .missing => .missing
  | .number p text => .number (move p) text
  | .string p value => .string (move p) value
  | .bool p value => .bool (move p) value
  | .na p => .na (move p)
  | .color p text => .color (move p) text
  | .name p n => .name (move p) n
  | .member p object property => .member (move p) (object.relocate move) property
  | .index p object offset => .index (move p) (object.relocate move) (offset.relocate move)
  | .call p key callee args typeArgs =>
    .call (move p) key (callee.relocate move) (relocateArgs move args) typeArgs
  | .binary p op left right => .binary (move p) op (left.relocate move) (right.relocate move)
  | .unary p op operand => .unary (move p) op (operand.relocate move)
  | .ternary p cond yes no =>
    .ternary (move p) (cond.relocate move) (yes.relocate move) (no.relocate move)
  | .array p elements => .array (move p) (relocateExprs move elements)
  | .switch p subject arms => .switch (move p) (subject.relocate move) (relocateArms move arms)
  | .ifElse p cond yes no =>
    .ifElse (move p) (cond.relocate move) (relocateStmts move yes) (relocateStmts move no)

/-- Expressions with moved positions. -/
def relocateExprs (move : Pos → Pos) : List Expr → List Expr
  | [] => []
  | e :: es => e.relocate move :: relocateExprs move es

/-- Arguments with moved positions. -/
def relocateArgs (move : Pos → Pos) : List Arg → List Arg
  | [] => []
  | .mk name value :: args => .mk name (value.relocate move) :: relocateArgs move args

/-- Arms with moved positions. -/
def relocateArms (move : Pos → Pos) : List Arm → List Arm
  | [] => []
  | .mk test body :: arms =>
    .mk (test.relocate move) (relocateStmts move body) :: relocateArms move arms

/-- Fields with moved positions. -/
def relocateFields (move : Pos → Pos) : List Field → List Field
  | [] => []
  | .mk name type initial :: fields =>
    .mk name type (initial.relocate move) :: relocateFields move fields

/-- A statement with moved positions. -/
def Stmt.relocate (move : Pos → Pos) : Stmt → Stmt
  | .missing => .missing
  | .decl p key name names qualifier type value =>
    .decl (move p) key name names qualifier type (value.relocate move)
  | .assign p target op value =>
    .assign (move p) (target.relocate move) op (value.relocate move)
  | .func p name params body isMethod =>
    .func (move p) name params (relocateStmts move body) isMethod
  | .ifElse p cond yes no =>
    .ifElse (move p) (cond.relocate move) (relocateStmts move yes) (relocateStmts move no)
  | .whileLoop p cond body => .whileLoop (move p) (cond.relocate move) (relocateStmts move body)
  | .forCount p counter init test update body eitherWay =>
    .forCount (move p) counter (init.relocate move) (test.relocate move) (update.relocate move)
      (relocateStmts move body) eitherWay
  | .forIn p index item collection body =>
    .forIn (move p) index item (collection.relocate move) (relocateStmts move body)
  | .ret p value => .ret (move p) (value.relocate move)
  | .brk p => .brk (move p)
  | .cont p => .cont (move p)
  | .switch p subject arms => .switch (move p) (subject.relocate move) (relocateArms move arms)
  | .typeDecl p name fields => .typeDecl (move p) name (relocateFields move fields)
  | .importLib p path localName => .importLib (move p) path localName
  | .exported p decl => .exported (move p) (decl.relocate move)
  | .expr p value => .expr (move p) (value.relocate move)

/-- Statements with moved positions. -/
def relocateStmts (move : Pos → Pos) : List Stmt → List Stmt
  | [] => []
  | s :: ss => s.relocate move :: relocateStmts move ss

end

/-- An argument with moved positions. -/
def Arg.relocate (move : Pos → Pos) : Arg → Arg
  | mk name value => mk name (value.relocate move)

/-- An arm with moved positions. -/
def Arm.relocate (move : Pos → Pos) : Arm → Arm
  | mk test body => mk (test.relocate move) (relocateStmts move body)

/-- A field with moved positions. -/
def Field.relocate (move : Pos → Pos) : Field → Field
  | mk name type initial => mk name type (initial.relocate move)

/-- A program with moved positions. -/
def Program.relocate (move : Pos → Pos) (program : Program) : Program := relocateStmts move program

/-! ### Shape -/

variable (move : Pos → Pos)

@[simp] theorem Expr.isMissing_relocate (e : Expr) : (e.relocate move).isMissing = e.isMissing := by
  cases e <;> rfl

@[simp] theorem Stmt.isMissing_relocate (s : Stmt) : (s.relocate move).isMissing = s.isMissing := by
  cases s <;> rfl

theorem Grammar.isCallee_relocate (e : Expr) :
    isCallee (e.relocate move) = isCallee e := by
  cases e <;> rfl

theorem Expr.pos_relocate {e : Expr} (h : e ≠ .missing) : (e.relocate move).pos = move e.pos := by
  cases e with
  | missing => exact absurd rfl h
  | _ => rfl

@[simp] theorem isEmpty_relocateStmts (ss : List Stmt) :
    (relocateStmts move ss).isEmpty = ss.isEmpty := by
  cases ss <;> rfl

theorem relocateExprs_eq_map : (es : List Expr) →
    relocateExprs move es = es.map (Expr.relocate move)
  | [] => rfl
  | e :: es => congrArg (e.relocate move :: ·) (relocateExprs_eq_map es)

theorem relocateArgs_eq_map : (args : List Arg) →
    relocateArgs move args = args.map (Arg.relocate move)
  | [] => rfl
  | .mk name value :: args =>
    congrArg (Arg.mk name (value.relocate move) :: ·) (relocateArgs_eq_map args)

theorem relocateArms_eq_map : (arms : List Arm) →
    relocateArms move arms = arms.map (Arm.relocate move)
  | [] => rfl
  | .mk test body :: arms =>
    congrArg (Arm.relocate move (.mk test body) :: ·) (relocateArms_eq_map arms)

theorem relocateFields_eq_map : (fields : List Field) →
    relocateFields move fields = fields.map (Field.relocate move)
  | [] => rfl
  | .mk name type initial :: fields =>
    congrArg (Field.relocate move (.mk name type initial) :: ·) (relocateFields_eq_map fields)

theorem relocateStmts_eq_map : (ss : List Stmt) →
    relocateStmts move ss = ss.map (Stmt.relocate move)
  | [] => rfl
  | s :: ss => congrArg (s.relocate move :: ·) (relocateStmts_eq_map ss)

theorem map_name_relocateFields : (fields : List Field) →
    (relocateFields move fields).map Field.name = fields.map Field.name
  | [] => rfl
  | .mk name _ _ :: fields => congrArg (name :: ·) (map_name_relocateFields fields)

theorem Expr.literal?_relocate : (e : Expr) → (e.relocate move).literal? = e.literal?
  | .number .. => rfl
  | .unary _ .neg operand => congrArg (·.map Binary64.neg) operand.literal?_relocate
  | .unary _ .not _ | .unary _ .plus _ | .unary _ (.other _) _ => rfl
  | .missing | .string .. | .bool .. | .na .. | .color .. | .name .. | .member .. | .index ..
  | .call .. | .binary .. | .ternary .. | .array .. | .switch .. | .ifElse .. => rfl

/-! ### Text -/

theorem Expr.text_relocate (e : Expr) : (e.relocate move).text = e.text := by
  apply @Expr.rec (fun e => (e.relocate move).text = e.text)
    (fun a => (a.value.relocate move).text = a.value.text)
    (fun a => (a.test.relocate move).text = a.test.text ∧
      stmtTexts (relocateStmts move a.body) = stmtTexts a.body)
    (fun _ => True) (fun s => (s.relocate move).text = s.text)
    (fun args => argTexts (relocateArgs move args) = argTexts args)
    (fun es => exprTexts (relocateExprs move es) = exprTexts es)
    (fun arms => armTexts (relocateArms move arms) = armTexts arms)
    (fun ss => stmtTexts (relocateStmts move ss) = stmtTexts ss) (fun _ => True)
  all_goals
    intros
    first
    | trivial
    | unfold Stmt.relocate Stmt.text
      simp_all [map_name_relocateFields]
    | simp_all [Expr.relocate, Expr.text, relocateExprs, exprTexts, relocateStmts, stmtTexts]
    | next a _ ha hrest =>
      cases a
      simp_all [relocateArgs, argTexts, relocateArms, armTexts, Arg.value, Arm.test, Arm.body]

/-! ### Moving nothing -/

/-- Moving nothing changes nothing. -/
theorem Stmt.relocate_id (s : Stmt) : s.relocate id = s := by
  apply @Stmt.rec (fun e => e.relocate id = e) (fun a => a.relocate id = a)
    (fun a => a.relocate id = a) (fun f => f.relocate id = f) (fun s => s.relocate id = s)
    (fun args => relocateArgs id args = args) (fun es => relocateExprs id es = es)
    (fun arms => relocateArms id arms = arms) (fun ss => relocateStmts id ss = ss)
    (fun fields => relocateFields id fields = fields)
  all_goals
    intros
    simp_all [Expr.relocate, Stmt.relocate, Arg.relocate, Arm.relocate, Field.relocate,
      relocateArgs_eq_map, relocateArms_eq_map, relocateFields_eq_map, relocateExprs, relocateStmts]

end Pine
