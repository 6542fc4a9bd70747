import Pine.Proofs.Tree.Nodes
import Pine.Tree.Keys
import Pine.Tree.Live

/-!
# Complete trees

A tree is *complete* if nothing that a script needs is absent from it: every part that must be
there is there, unary operators are operators of the language, assignments go to names and
members, and a counting loop has a declaration, a comparison and an assignment as its parts. A
part may be absent only where the language has an optional part: the value of a return, the
subject of a switch, the test of an arm and the initial value of a field.

The predicate is relative to a set of keys. A declaration of a persistent variable must have a key
in this set, which stands for the declarations that were given a cell.
-/

namespace Pine

/-! ### Shapes of parts -/

theorem Expr.isMissing_iff {e : Expr} : e.isMissing = true ↔ e = .missing := by
  cases e <;> simp [isMissing]

/-- The expressions that can be assigned to. -/
def Expr.IsTarget : Expr → Prop
  | .name .. | .member .. => True
  | _ => False

/-- The expressions with a binary operator at their root. -/
def Expr.IsBinary : Expr → Prop
  | .binary .. => True
  | _ => False

/-- The statements that declare variables. -/
def Stmt.IsDecl : Stmt → Prop
  | .decl .. => True
  | _ => False

/-- The statements that assign. -/
def Stmt.IsAssign : Stmt → Prop
  | .assign .. => True
  | _ => False

/-- The operators of the language. -/
def UnaryOp.IsKnown : UnaryOp → Prop
  | .other _ => False
  | _ => True

/-! ### Completeness -/

mutual

/-- An expression in which nothing is absent, relative to the keys `K` of declarations with a
cell. -/
def Expr.Complete (K : Nat → Prop) : Expr → Prop
  | .missing => False
  | .number .. | .string .. | .bool .. | .na .. | .color .. | .name .. => True
  | .member _ object _ => object.Complete K
  | .index _ object offset | .binary _ _ object offset => object.Complete K ∧ offset.Complete K
  | .call _ _ callee args _ => callee.Complete K ∧ CompleteArgs K args
  | .unary _ op operand => op.IsKnown ∧ operand.Complete K
  | .ternary _ cond yes no => cond.Complete K ∧ yes.Complete K ∧ no.Complete K
  | .array _ elements => CompleteExprs K elements
  | .switch _ subject arms =>
    (subject.isMissing = true ∨ subject.Complete K) ∧ CompleteArms K arms
  | .ifElse _ cond yes no => cond.Complete K ∧ CompleteStmts K yes ∧ CompleteStmts K no

/-- Expressions in which nothing is absent. -/
def CompleteExprs (K : Nat → Prop) : List Expr → Prop
  | [] => True
  | e :: es => e.Complete K ∧ CompleteExprs K es

/-- Arguments in which nothing is absent. -/
def CompleteArgs (K : Nat → Prop) : List Arg → Prop
  | [] => True
  | .mk _ value :: args => value.Complete K ∧ CompleteArgs K args

/-- Arms in which nothing but the test of a default arm is absent. -/
def CompleteArms (K : Nat → Prop) : List Arm → Prop
  | [] => True
  | .mk test body :: arms =>
    (test.isMissing = true ∨ test.Complete K) ∧ CompleteStmts K body ∧ CompleteArms K arms

/-- Fields in which nothing but an initial value is absent. -/
def CompleteFields (K : Nat → Prop) : List Field → Prop
  | [] => True
  | .mk _ _ initial :: fields =>
    (initial.isMissing = true ∨ initial.Complete K) ∧ CompleteFields K fields

/-- A statement in which nothing but an optional part is absent. -/
def Stmt.Complete (K : Nat → Prop) : Stmt → Prop
  | .missing => False
  | .decl _ key _ names qualifier _ value =>
    value.Complete K ∧ (names = [] → qualifier ≠ "" → K key)
  | .assign _ target _ value => target.IsTarget ∧ target.Complete K ∧ value.Complete K
  | .func _ _ _ body _ => CompleteStmts K body
  | .ifElse _ cond yes no => cond.Complete K ∧ CompleteStmts K yes ∧ CompleteStmts K no
  | .whileLoop _ cond body | .forIn _ _ _ cond body => cond.Complete K ∧ CompleteStmts K body
  | .forCount _ _ init test update body _ =>
    (init.IsDecl ∧ test.IsBinary ∧ update.IsAssign) ∧
      init.Complete K ∧ test.Complete K ∧ update.Complete K ∧ CompleteStmts K body
  | .ret _ value => value.isMissing = true ∨ value.Complete K
  | .brk _ | .cont _ | .importLib .. => True
  | .switch _ subject arms =>
    (subject.isMissing = true ∨ subject.Complete K) ∧ CompleteArms K arms
  | .typeDecl _ _ fields => CompleteFields K fields
  | .exported _ decl | .expr _ decl => decl.Complete K

/-- Statements in which nothing but optional parts is absent. -/
def CompleteStmts (K : Nat → Prop) : List Stmt → Prop
  | [] => True
  | s :: ss => s.Complete K ∧ CompleteStmts K ss

end

theorem completeExprs_iff {K : Nat → Prop} {es : List Expr} :
    CompleteExprs K es ↔ ∀ e ∈ es, e.Complete K := by
  induction es with
  | nil => simp [CompleteExprs]
  | cons e es ih => simp [CompleteExprs, ih]

theorem completeArgs_iff {K : Nat → Prop} {args : List Arg} :
    CompleteArgs K args ↔ ∀ a ∈ args, a.value.Complete K := by
  induction args with
  | nil => simp [CompleteArgs]
  | cons a args ih =>
    cases a
    simp [CompleteArgs, ih, Arg.value]

theorem completeArms_iff {K : Nat → Prop} {arms : List Arm} : CompleteArms K arms ↔
    ∀ a ∈ arms, (a.test.isMissing = true ∨ a.test.Complete K) ∧ CompleteStmts K a.body := by
  induction arms with
  | nil => simp [CompleteArms]
  | cons a arms ih =>
    cases a
    simp [CompleteArms, ih, Arm.test, Arm.body, and_assoc]

theorem completeFields_iff {K : Nat → Prop} {fields : List Field} : CompleteFields K fields ↔
    ∀ f ∈ fields, f.initial.isMissing = true ∨ f.initial.Complete K := by
  induction fields with
  | nil => simp [CompleteFields]
  | cons f fields ih =>
    cases f
    simp [CompleteFields, ih, Field.initial]

theorem completeStmts_iff {K : Nat → Prop} {ss : List Stmt} :
    CompleteStmts K ss ↔ ∀ s ∈ ss, s.Complete K := by
  induction ss with
  | nil => simp [CompleteStmts]
  | cons s ss ih => simp [CompleteStmts, ih]

/-! ### Nodes -/

/-- A node below which nothing but optional parts is absent. -/
def Node.Complete (K : Nat → Prop) : Node → Prop
  | .program stmts => CompleteStmts K stmts
  | .expr e | .stmt e => e.Complete K

theorem Node.Complete.isMissing_eq {K : Nat → Prop} {n : Node} (h : n.Complete K) :
    n.isMissing = false := by
  cases n with
  | program ss => rfl
  | expr e | stmt e =>
    cases e with
    | missing => cases h
    | _ => rfl

/-- The parts of a complete node are complete, unless they are optional and absent. -/
theorem Node.Complete.part {K : Nat → Prop} {n : Node} (h : n.Complete K) :
    Each (fun m => m.isMissing = true ∨ m.Complete K) n.parts := by
  cases n with
  | program ss => simp_all [Node.Complete, parts, completeStmts_iff]
  | expr e =>
    cases e <;> simp_all [Node.Complete, Expr.Complete, parts, Expr.parts, completeStmts_iff,
      completeExprs_iff, completeArgs_iff, completeArms_iff, isMissing]
    grind
  | stmt s =>
    cases s <;> simp_all [Node.Complete, Stmt.Complete, parts, Stmt.parts, completeStmts_iff,
      completeFields_iff, completeArms_iff, isMissing]
    grind

/-- All nodes below a node are complete, if it is not an optional part that is absent. -/
theorem Node.each_complete {K : Nat → Prop} {n : Node} (h : n.isMissing = true ∨ n.Complete K) :
    Each (Node.Complete K) (n.walk fun _ => .parts) := by
  induction n using Node.induct with
  | inherit n ih =>
    obtain h | h := h
    · rw [walk_missing h]
      exact each_nil
    · rw [walk_parts h.isMissing_eq]
      exact .cons h (each_flatMap.2 fun m hm => ih m hm (h.part m hm))

/-- **All nodes of a complete program are complete.** -/
theorem Program.each_complete {K : Nat → Prop} {program : Program} (h : CompleteStmts K program) :
    Each (Node.Complete K) program.nodes :=
  each_stmts.2 fun s hs =>
    Node.each_complete (n := .stmt s) (.inr (completeStmts_iff.1 h s hs))

/-! ### Completeness relative to the keys of a walk -/

/-- The key of a persistent declaration of a single name. -/
def Node.cellKey? : Node → Option Nat
  | .stmt (.decl _ key _ [] qualifier _ _) => if qualifier = "" then none else some key
  | _ => none

/-- The key of a persistent declaration lies in `K`. -/
def Node.CellIn (K : Nat → Prop) (n : Node) : Prop := ∀ key ∈ n.cellKey?, K key

section Walk

variable {J K : Nat → Prop}

theorem Node.Complete.mono {n : Node} (h : n.Complete J) (hn : n.CellIn K)
    (hparts : Each (fun m => m.Complete J → m.Complete K) n.parts) : n.Complete K := by
  cases n with
  | program ss => simp_all [Node.Complete, parts, completeStmts_iff]
  | expr e =>
    cases e <;> simp_all [Node.Complete, Expr.Complete, parts, Expr.parts, completeStmts_iff,
      completeExprs_iff, completeArgs_iff, completeArms_iff] <;> grind
  | stmt s =>
    cases s <;> simp_all [Node.Complete, Stmt.Complete, parts, Stmt.parts, completeStmts_iff,
      completeFields_iff, completeArms_iff, CellIn, cellKey?] <;> grind

theorem Node.complete_of_walk {n : Node} (h : n.Complete J)
    (hk : Each (Node.CellIn K) (n.walk fun _ => .parts)) : n.Complete K := by
  induction n using Node.induct with
  | inherit n ih =>
    rw [walk_parts h.isMissing_eq] at hk
    obtain ⟨hnode, hparts⟩ := each_cons.1 hk
    exact h.mono hnode fun m hm hcomplete => ih m hm hcomplete (each_flatMap.1 hparts m hm)

theorem completeStmts_of_walk (ss : List Stmt) (h : CompleteStmts J ss)
    (hk : Each (Node.CellIn K) (walkStmts (fun _ => .parts) ss)) : CompleteStmts K ss :=
  completeStmts_iff.2 fun s hs => Node.complete_of_walk (n := .stmt s)
    (completeStmts_iff.1 h s hs) (each_stmts.1 hk s hs)

end Walk

/-! ### Keying and pruning -/

/-- Relative to all keys: nothing is demanded of the keys. -/
abbrev anyKey : Nat → Prop := fun _ => True

theorem Expr.isMissing_keyed (e : Expr) (n : Nat) : (e.keyed n).1.isMissing = e.isMissing := by
  cases e <;> rfl

theorem Expr.isTarget_keyed (e : Expr) (n : Nat) : (e.keyed n).1.IsTarget ↔ e.IsTarget := by
  cases e <;> exact Iff.rfl

theorem Expr.isBinary_keyed (e : Expr) (n : Nat) : (e.keyed n).1.IsBinary ↔ e.IsBinary := by
  cases e <;> exact Iff.rfl

theorem Stmt.isDecl_keyed (s : Stmt) (n : Nat) : (s.keyed n).1.IsDecl ↔ s.IsDecl := by
  cases s <;> exact Iff.rfl

theorem Stmt.isAssign_keyed (s : Stmt) (n : Nat) : (s.keyed n).1.IsAssign ↔ s.IsAssign := by
  cases s <;> exact Iff.rfl

mutual

theorem Expr.complete_keyed : (e : Expr) → e.Complete anyKey → ∀ n, (e.keyed n).1.Complete anyKey
  | .missing, h, _ => h
  | .number .., _, _ | .string .., _, _ | .bool .., _, _ | .na .., _, _ | .color .., _, _
  | .name .., _, _ => trivial
  | .member _ object _, h, _ => object.complete_keyed h _
  | .index _ object offset, h, _ | .binary _ _ object offset, h, _ =>
    ⟨object.complete_keyed h.1 _, offset.complete_keyed h.2 _⟩
  | .call _ _ callee args _, h, _ => ⟨callee.complete_keyed h.1 _, completeArgs_keyed args h.2 _⟩
  | .unary _ _ operand, h, _ => ⟨h.1, operand.complete_keyed h.2 _⟩
  | .ternary _ cond yes no, h, _ =>
    ⟨cond.complete_keyed h.1 _, yes.complete_keyed h.2.1 _, no.complete_keyed h.2.2 _⟩
  | .array _ elements, h, _ => completeExprs_keyed elements h _
  | .switch _ subject arms, h, _ =>
    ⟨h.1.imp (subject.isMissing_keyed _).trans fun h => subject.complete_keyed h _,
      completeArms_keyed arms h.2 _⟩
  | .ifElse _ cond yes no, h, _ =>
    ⟨cond.complete_keyed h.1 _, completeStmts_keyed yes h.2.1 _, completeStmts_keyed no h.2.2 _⟩

theorem completeExprs_keyed : (es : List Expr) → CompleteExprs anyKey es →
    ∀ n, CompleteExprs anyKey (keyedExprs es n).1
  | [], _, _ => trivial
  | e :: es, h, _ => ⟨e.complete_keyed h.1 _, completeExprs_keyed es h.2 _⟩

theorem completeArgs_keyed : (args : List Arg) → CompleteArgs anyKey args →
    ∀ n, CompleteArgs anyKey (keyedArgs args n).1
  | [], _, _ => trivial
  | .mk _ value :: args, h, _ => ⟨value.complete_keyed h.1 _, completeArgs_keyed args h.2 _⟩

theorem completeArms_keyed : (arms : List Arm) → CompleteArms anyKey arms →
    ∀ n, CompleteArms anyKey (keyedArms arms n).1
  | [], _, _ => trivial
  | .mk test body :: arms, h, _ =>
    ⟨h.1.imp (test.isMissing_keyed _).trans fun h => test.complete_keyed h _,
      completeStmts_keyed body h.2.1 _, completeArms_keyed arms h.2.2 _⟩

theorem completeFields_keyed : (fields : List Field) → CompleteFields anyKey fields →
    ∀ n, CompleteFields anyKey (keyedFields fields n).1
  | [], _, _ => trivial
  | .mk _ _ initial :: fields, h, _ =>
    ⟨h.1.imp (initial.isMissing_keyed _).trans fun h => initial.complete_keyed h _,
      completeFields_keyed fields h.2 _⟩

theorem Stmt.complete_keyed : (s : Stmt) → s.Complete anyKey → ∀ n, (s.keyed n).1.Complete anyKey
  | .missing, h, _ => h
  | .decl _ _ _ _ _ _ value, h, _ => ⟨value.complete_keyed h.1 _, fun _ _ => trivial⟩
  | .assign _ target _ value, h, _ =>
    ⟨(target.isTarget_keyed _).2 h.1, target.complete_keyed h.2.1 _, value.complete_keyed h.2.2 _⟩
  | .func _ _ _ body _, h, _ => completeStmts_keyed body h _
  | .ifElse _ cond yes no, h, _ =>
    ⟨cond.complete_keyed h.1 _, completeStmts_keyed yes h.2.1 _, completeStmts_keyed no h.2.2 _⟩
  | .whileLoop _ cond body, h, _ | .forIn _ _ _ cond body, h, _ =>
    ⟨cond.complete_keyed h.1 _, completeStmts_keyed body h.2 _⟩
  | .forCount _ _ init test update body _, ⟨hs, hi, ht, hu, hb⟩, _ =>
    ⟨⟨(init.isDecl_keyed _).2 hs.1, (test.isBinary_keyed _).2 hs.2.1,
        (update.isAssign_keyed _).2 hs.2.2⟩,
      init.complete_keyed hi _, test.complete_keyed ht _, update.complete_keyed hu _,
      completeStmts_keyed body hb _⟩
  | .ret _ value, h, _ => Or.imp (value.isMissing_keyed _).trans (fun h => value.complete_keyed h _) h
  | .brk _, _, _ | .cont _, _, _ | .importLib .., _, _ => trivial
  | .switch _ subject arms, h, _ =>
    ⟨h.1.imp (subject.isMissing_keyed _).trans fun h => subject.complete_keyed h _,
      completeArms_keyed arms h.2 _⟩
  | .typeDecl _ _ fields, h, _ => completeFields_keyed fields h _
  | .exported _ decl, h, _ | .expr _ decl, h, _ => decl.complete_keyed h _

theorem completeStmts_keyed : (ss : List Stmt) → CompleteStmts anyKey ss →
    ∀ n, CompleteStmts anyKey (keyedStmts ss n).1
  | [], _, _ => trivial
  | s :: ss, h, _ => ⟨s.complete_keyed h.1 _, completeStmts_keyed ss h.2 _⟩

end

namespace Program

/-- **Keying a complete program leaves it complete.** -/
theorem complete_keyed {program : Program} (h : CompleteStmts anyKey program) :
    CompleteStmts anyKey program.keyed :=
  completeStmts_keyed program h 1

/-- **Dropping dead functions leaves a program complete.** -/
theorem complete_prune {K : Nat → Prop} {program : Program} (h : CompleteStmts K program) :
    CompleteStmts K program.prune := by
  rw [completeStmts_iff] at h ⊢
  intro s hs
  exact h s (List.mem_filter.1 hs).1

end Program

end Pine
