import Pine.Proofs.Tree.Nodes
import Pine.Tree.Args
import Pine.Tree.Keys

/-!
# Trees with other strings

Changing the values of the strings of a tree and the paths of its imports moves its positions and
keeps everything else: its shape, its names, and the local names of its imports. Two trees agree up
to their strings if they are the same after every string but the empty one is made the same, and
all positions are made one.
-/

namespace Pine

open List

/-- What becomes of the strings and of the positions of a tree. -/
structure Rewording where
  /-- The new value of a string, or path of an import. -/
  string : String → String
  /-- The new position. -/
  move : Pos → Pos

namespace Rewording

/-- Changes nothing. -/
def same : Rewording := ⟨id, id⟩

theorem same_move (p : Pos) : same.move p = p := rfl

/-- Makes all strings the same, the empty one apart, and all positions one. -/
def blank : Rewording := ⟨fun s => if s = "" then "" else "_", fun _ => ⟨0, 0⟩⟩

end Rewording

/-! ### Trees -/

mutual

/-- An expression with changed strings. -/
def Expr.reword (r : Rewording) : Expr → Expr
  | .missing => .missing
  | .number p text => .number (r.move p) text
  | .string p value => .string (r.move p) (r.string value)
  | .bool p value => .bool (r.move p) value
  | .na p => .na (r.move p)
  | .color p text => .color (r.move p) text
  | .name p n => .name (r.move p) n
  | .member p object property => .member (r.move p) (object.reword r) property
  | .index p object offset => .index (r.move p) (object.reword r) (offset.reword r)
  | .call p key callee args typeArgs =>
    .call (r.move p) key (callee.reword r) (rewordArgs r args) typeArgs
  | .binary p op left right => .binary (r.move p) op (left.reword r) (right.reword r)
  | .unary p op operand => .unary (r.move p) op (operand.reword r)
  | .ternary p cond yes no =>
    .ternary (r.move p) (cond.reword r) (yes.reword r) (no.reword r)
  | .array p elements => .array (r.move p) (rewordExprs r elements)
  | .switch p subject arms => .switch (r.move p) (subject.reword r) (rewordArms r arms)
  | .ifElse p cond yes no =>
    .ifElse (r.move p) (cond.reword r) (rewordStmts r yes) (rewordStmts r no)

/-- Expressions with changed strings. -/
def rewordExprs (r : Rewording) : List Expr → List Expr
  | [] => []
  | e :: es => e.reword r :: rewordExprs r es

/-- Arguments with changed strings. -/
def rewordArgs (r : Rewording) : List Arg → List Arg
  | [] => []
  | .mk name value :: args => .mk name (value.reword r) :: rewordArgs r args

/-- Arms with changed strings. -/
def rewordArms (r : Rewording) : List Arm → List Arm
  | [] => []
  | .mk test body :: arms =>
    .mk (test.reword r) (rewordStmts r body) :: rewordArms r arms

/-- Fields with changed strings. -/
def rewordFields (r : Rewording) : List Field → List Field
  | [] => []
  | .mk name type initial :: fields =>
    .mk name type (initial.reword r) :: rewordFields r fields

/-- A statement with changed strings; the path of an import is changed too. -/
def Stmt.reword (r : Rewording) : Stmt → Stmt
  | .missing => .missing
  | .decl p key name names qualifier type value =>
    .decl (r.move p) key name names qualifier type (value.reword r)
  | .assign p target op value => .assign (r.move p) (target.reword r) op (value.reword r)
  | .func p name params body isMethod => .func (r.move p) name params (rewordStmts r body) isMethod
  | .ifElse p cond yes no =>
    .ifElse (r.move p) (cond.reword r) (rewordStmts r yes) (rewordStmts r no)
  | .whileLoop p cond body => .whileLoop (r.move p) (cond.reword r) (rewordStmts r body)
  | .forCount p counter init test update body eitherWay =>
    .forCount (r.move p) counter (init.reword r) (test.reword r) (update.reword r)
      (rewordStmts r body) eitherWay
  | .forIn p index item collection body =>
    .forIn (r.move p) index item (collection.reword r) (rewordStmts r body)
  | .ret p value => .ret (r.move p) (value.reword r)
  | .brk p => .brk (r.move p)
  | .cont p => .cont (r.move p)
  | .switch p subject arms => .switch (r.move p) (subject.reword r) (rewordArms r arms)
  | .typeDecl p name fields => .typeDecl (r.move p) name (rewordFields r fields)
  | .importLib p path localName => .importLib (r.move p) (r.string path) localName
  | .exported p decl => .exported (r.move p) (decl.reword r)
  | .expr p value => .expr (r.move p) (value.reword r)

/-- Statements with changed strings. -/
def rewordStmts (r : Rewording) : List Stmt → List Stmt
  | [] => []
  | s :: ss => s.reword r :: rewordStmts r ss

end

/-- A node with changed strings. -/
def Node.reword (r : Rewording) : Node → Node
  | .program stmts => .program (rewordStmts r stmts)
  | .expr e => .expr (e.reword r)
  | .stmt s => .stmt (s.reword r)

/-! ### Shape -/

variable (r : Rewording)

attribute [local simp] Expr.reword rewordExprs rewordArgs rewordArms rewordFields Stmt.reword
  rewordStmts

@[simp] theorem Expr.isMissing_reword (e : Expr) :
    (e.reword r).isMissing = e.isMissing := by
  cases e <;> rfl

@[simp] theorem Expr.path_reword : (e : Expr) → (e.reword r).path = e.path
  | .member _ object property => by simp [Expr.path, object.path_reword]
  | .missing | .number .. | .string .. | .bool .. | .na .. | .color .. | .name .. | .index ..
  | .call .. | .binary .. | .unary .. | .ternary .. | .array .. | .switch .. | .ifElse .. => rfl

@[simp] theorem isEmpty_rewordStmts (ss : List Stmt) :
    (rewordStmts r ss).isEmpty = ss.isEmpty := by
  cases ss <;> rfl

theorem map_name_rewordArgs (args : List Arg) :
    (rewordArgs r args).map Arg.name = args.map Arg.name := by
  induction args with
  | nil => rfl
  | cons a args ih =>
    obtain ⟨name, _⟩ := a
    exact congrArg (name :: ·) ih

theorem map_name_rewordFields (fields : List Field) :
    (rewordFields r fields).map Field.name = fields.map Field.name := by
  induction fields with
  | nil => rfl
  | cons f fields ih =>
    obtain ⟨name, _, _⟩ := f
    exact congrArg (name :: ·) ih

theorem rewordExprs_eq_map (es : List Expr) : rewordExprs r es = es.map (Expr.reword r) := by
  induction es with
  | nil => rfl
  | cons e es ih => exact congrArg (e.reword r :: ·) ih

theorem rewordStmts_eq_map (ss : List Stmt) : rewordStmts r ss = ss.map (Stmt.reword r) := by
  induction ss with
  | nil => rfl
  | cons s ss ih => exact congrArg (s.reword r :: ·) ih

theorem argParts_reword (args : List Arg) :
    (rewordArgs r args).map (fun a => Node.expr a.value) =
      (args.map fun a => .expr a.value).map (Node.reword r) := by
  induction args with
  | nil => rfl
  | cons a args ih =>
    cases a
    exact congrArg (_ :: ·) ih

theorem fieldParts_reword (fields : List Field) :
    (rewordFields r fields).map (fun f => Node.expr f.initial) =
      (fields.map fun f => .expr f.initial).map (Node.reword r) := by
  induction fields with
  | nil => rfl
  | cons f fields ih =>
    cases f
    exact congrArg (_ :: ·) ih

theorem stmtParts_reword (ss : List Stmt) :
    (rewordStmts r ss).map Node.stmt = (ss.map .stmt).map (Node.reword r) := by
  rw [rewordStmts_eq_map, map_map, map_map]
  rfl

theorem armParts_reword (arms : List Arm) :
    armParts (rewordArms r arms) = (armParts arms).map (Node.reword r) := by
  induction arms with
  | nil => rfl
  | cons a arms ih =>
    obtain ⟨test, body⟩ := a
    have hbody := stmtParts_reword r body
    simp only [rewordArms, armParts, flatMap_cons, map_append] at ih ⊢
    exact congr (congrArg _ (congrArg (_ :: ·) hbody)) ih

theorem Node.below_reword (n : Node) (d : Descent) :
    (n.reword r).below d = (n.below d).map (Node.reword r) := by
  cases n with
  | program ss => cases d <;> simp [Node.reword, below, arguments, parts, stmtParts_reword]
  | expr e =>
    cases e <;> cases d <;> simp [Node.reword, below, arguments, parts, Expr.parts, Expr.reword,
      rewordExprs_eq_map, argParts_reword, stmtParts_reword, armParts_reword]
  | stmt s =>
    cases s <;> cases d <;> simp [Node.reword, below, arguments, parts, Stmt.parts, Stmt.reword,
      fieldParts_reword, stmtParts_reword, armParts_reword]

theorem Node.isMissing_reword (n : Node) : (n.reword r).isMissing = n.isMissing := by
  cases n with
  | program ss => rfl
  | expr e => exact e.isMissing_reword r
  | stmt s => cases s <;> rfl

/-! ### Arguments -/

namespace Args

theorem named?_reword (name : String) (args : List Arg) :
    named? (rewordArgs r args) name = named? args name := by
  induction args with
  | nil => rfl
  | cons a args ih =>
    cases a
    unfold named? at ih ⊢
    rw [rewordArgs, findIdx?_cons, findIdx?_cons, ih]
    rfl

theorem positional?_reword (args : List Arg) (i : Nat) :
    positional? (rewordArgs r args) i = positional? args i := by
  induction args generalizing i with
  | nil => rfl
  | cons a args ih =>
    obtain ⟨n, value⟩ := a
    rw [rewordArgs, positional?.eq_def, positional?.eq_def (.mk n value :: args)]
    simp only [ih]
    rfl

theorem getElem?_reword : (args : List Arg) → (i : Nat) →
    (rewordArgs r args)[i]?.map Arg.value = (args[i]?.map Arg.value).map (Expr.reword r)
  | [], _ => rfl
  | .mk _ _ :: _, 0 => rfl
  | .mk _ _ :: args, i + 1 => by
    rw [rewordArgs, getElem?_cons_succ, getElem?_cons_succ]
    exact getElem?_reword args i

theorem valueAt_reword (args : List Arg) (place : Option Nat) :
    valueAt (rewordArgs r args) place = (valueAt args place).reword r := by
  unfold valueAt
  cases place with
  | none => rfl
  | some i =>
    simp only [Option.bind_some]
    rw [getElem?_reword]
    cases args[i]?.map Arg.value <;> rfl

theorem index?_reword (args : List Arg) (name : String) (position : Option Nat) :
    index? (rewordArgs r args) name position = index? args name position := by
  unfold index?
  simp only [named?_reword, valueAt_reword, Expr.isMissing_reword]
  congr 2
  funext i
  exact positional?_reword r args i

theorem find_reword (args : List Arg) (name : String) (position : Option Nat) :
    find (rewordArgs r args) name position = (find args name position).reword r := by
  rw [find, find, index?_reword, valueAt_reword]

end Args

/-! ### Changing nothing -/

theorem rewordStmts_same (ss : List Stmt) : rewordStmts .same ss = ss := by
  apply @Expr.rec_4 (fun e => e.reword .same = e) (fun a => a.value.reword .same = a.value)
    (fun a => a.test.reword .same = a.test ∧ rewordStmts .same a.body = a.body)
    (fun f => f.initial.reword .same = f.initial) (fun s => s.reword .same = s)
    (fun args => rewordArgs .same args = args) (fun es => rewordExprs .same es = es)
    (fun arms => rewordArms .same arms = arms) (fun ss => rewordStmts .same ss = ss)
    (fun fields => rewordFields .same fields = fields)
  all_goals
    intros
    first
    | trivial
    | simp_all [Expr.reword, Stmt.reword, rewordExprs, rewordStmts, Rewording.same_move]
    | next a _ ha hrest =>
      cases a
      simp_all [rewordArgs, rewordArms, rewordFields, Arg.value, Arm.test, Arm.body, Field.initial]

/-! ### Keys -/

theorem bind_apply {α β : Type} (x : StateM Nat α) (k : α → StateM Nat β) (n : Nat) :
    (x >>= k) n = k (x n).1 (x n).2 := rfl

theorem pure_apply {α : Type} (a : α) (n : Nat) : (pure a : StateM Nat α) n = (a, n) := rfl

theorem keyedStmts_reword (ss : List Stmt) : ∀ n, keyedStmts (rewordStmts r ss) n =
    (rewordStmts r (keyedStmts ss n).1, (keyedStmts ss n).2) := by
  apply @Expr.rec_4
    (fun e => ∀ n, (e.reword r).keyed n = ((e.keyed n).1.reword r, (e.keyed n).2))
    (fun a => ∀ n, (a.value.reword r).keyed n = ((a.value.keyed n).1.reword r, (a.value.keyed n).2))
    (fun a => (∀ n, (a.test.reword r).keyed n = ((a.test.keyed n).1.reword r, (a.test.keyed n).2)) ∧
      ∀ n, keyedStmts (rewordStmts r a.body) n =
        (rewordStmts r (keyedStmts a.body n).1, (keyedStmts a.body n).2))
    (fun f => ∀ n, (f.initial.reword r).keyed n =
      ((f.initial.keyed n).1.reword r, (f.initial.keyed n).2))
    (fun s => ∀ n, (s.reword r).keyed n = ((s.keyed n).1.reword r, (s.keyed n).2))
    (fun args => ∀ n, keyedArgs (rewordArgs r args) n =
      (rewordArgs r (keyedArgs args n).1, (keyedArgs args n).2))
    (fun es => ∀ n, keyedExprs (rewordExprs r es) n =
      (rewordExprs r (keyedExprs es n).1, (keyedExprs es n).2))
    (fun arms => ∀ n, keyedArms (rewordArms r arms) n =
      (rewordArms r (keyedArms arms n).1, (keyedArms arms n).2))
    (fun ss => ∀ n, keyedStmts (rewordStmts r ss) n =
      (rewordStmts r (keyedStmts ss n).1, (keyedStmts ss n).2))
    (fun fields => ∀ n, keyedFields (rewordFields r fields) n =
      (rewordFields r (keyedFields fields n).1, (keyedFields fields n).2))
  all_goals
    intros
    first
    | trivial
    | solve_by_elim [And.intro]
    | simp only [Expr.reword, Expr.keyed, Stmt.reword, Stmt.keyed, rewordExprs, keyedExprs,
        rewordStmts, keyedStmts, bind_apply, pure_apply, *]
    | next a _ ha hrest _ =>
      cases a
      simp_all only [rewordArgs, keyedArgs, rewordArms, keyedArms, rewordFields, keyedFields,
        Arg.value, Arm.test, Arm.body, Field.initial, bind_apply, pure_apply]

/-- **Keying does not look at strings.** -/
theorem Program.keyed_reword (program : Program) :
    Program.keyed (rewordStmts r program) = rewordStmts r program.keyed := by
  rw [Program.keyed, keyedStmts_reword]
  rfl

/-! ### Walks -/

/-- A walk that does not look at strings when it decides how to go on. -/
def IgnoresStrings (enter : Node → Descent) : Prop := ∀ n : Node, enter (n.reword r) = enter n

section Walk

variable {r} {enter : Node → Descent}

theorem Node.walk_reword (h : IgnoresStrings r enter) (n : Node) :
    (n.reword r).walk enter = (n.walk enter).map (Node.reword r) := by
  induction n using Node.induct with
  | inherit n ih =>
    cases hn : n.isMissing with
    | true => rw [walk_missing hn, walk_missing ((isMissing_reword r n).trans hn), map_nil]
    | false =>
      rw [walk_eq hn, walk_eq ((isMissing_reword r n).trans hn), h, below_reword, map_cons,
        flatMap_map, map_flatMap]
      exact congrArg (_ :: ·.flatten)
        (map_congr_left fun m hm => ih m (mem_parts_of_mem_below hm))

/-- A walk that does not look at strings lists the changed nodes of a changed tree. -/
theorem walkStmts_reword (h : IgnoresStrings r enter) (ss : List Stmt) :
    walkStmts enter (rewordStmts r ss) = (walkStmts enter ss).map (Node.reword r) := by
  rw [walkStmts_eq, walkStmts_eq, rewordStmts_eq_map, flatMap_map, map_flatMap]
  exact congrArg List.flatten (map_congr_left fun s _ => Node.walk_reword h (.stmt s))

end Walk

/-- The nodes of a changed program are the changed nodes. -/
theorem Program.nodes_reword (program : Program) :
    Program.nodes (rewordStmts r program) = program.nodes.map (Node.reword r) :=
  walkStmts_reword (fun _ => rfl) program

end Pine
