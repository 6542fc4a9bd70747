import Pine.Tree.Walk

/-!
# Nodes and their parts

Expressions, arguments, arms, fields and statements are parts of each other. For most purposes a
tree is simpler than that: a node, followed by the nodes that are its parts. What a walk lists is
said in these terms, and what holds of every node whose parts have it holds of all nodes.
-/

namespace Pine

open List

/-! ### Parts -/

/-- The parts of arms: the test and the statements of each. -/
def armParts (arms : List Arm) : List Node :=
  arms.flatMap fun a => .expr a.test :: a.body.map .stmt

/-- The parts of an expression, in source order. -/
def Expr.parts : Expr → List Node
  | .member _ object _ => [.expr object]
  | .index _ object offset => [.expr object, .expr offset]
  | .call _ _ callee args _ => .expr callee :: args.map fun a => .expr a.value
  | .binary _ _ left right => [.expr left, .expr right]
  | .unary _ _ operand => [.expr operand]
  | .ternary _ cond yes no => [.expr cond, .expr yes, .expr no]
  | .array _ elements => elements.map .expr
  | .switch _ subject arms => .expr subject :: armParts arms
  | .ifElse _ cond yes no => .expr cond :: (yes.map .stmt ++ no.map .stmt)
  | _ => []

/-- The parts of a statement, in source order. -/
def Stmt.parts : Stmt → List Node
  | .decl _ _ _ _ _ _ value | .ret _ value | .expr _ value => [.expr value]
  | .assign _ target _ value => [.expr target, .expr value]
  | .func _ _ _ body _ => body.map .stmt
  | .ifElse _ cond yes no => .expr cond :: (yes.map .stmt ++ no.map .stmt)
  | .whileLoop _ cond body | .forIn _ _ _ cond body => .expr cond :: body.map .stmt
  | .forCount _ _ init test update body _ =>
    .stmt init :: .expr test :: .stmt update :: body.map .stmt
  | .switch _ subject arms => .expr subject :: armParts arms
  | .typeDecl _ _ fields => fields.map fun f => .expr f.initial
  | .exported _ inner => [.stmt inner]
  | _ => []

namespace Node

/-- The parts of a node, in source order. -/
def parts : Node → List Node
  | program stmts => stmts.map .stmt
  | expr e => e.parts
  | stmt s => s.parts

/-- Whether there is no node. -/
def isMissing : Node → Bool
  | program _ => false
  | expr e => e.isMissing
  | stmt s => s.isMissing

/-- The parts of a node other than the callee of a call. -/
def arguments : Node → List Node
  | expr (.call _ _ _ args _) => args.map fun a => .expr a.value
  | n => n.parts

/-- The parts with which a walk goes on below a node. -/
def below (n : Node) : Descent → List Node
  | .stop => []
  | .arguments => n.arguments
  | .parts => n.parts

end Node

/-! ### Properties of all nodes -/

/-- Every node has a property. -/
def Each (P : Node → Prop) (nodes : List Node) : Prop := ∀ n ∈ nodes, P n

section Each

variable {P Q : Node → Prop} {n : Node} {ms ns : List Node}

@[simp] theorem each_nil : Each P [] := by simp [Each]

@[simp] theorem each_cons : Each P (n :: ns) ↔ P n ∧ Each P ns := forall_mem_cons

@[simp] theorem each_append : Each P (ms ++ ns) ↔ Each P ms ∧ Each P ns := forall_mem_append

theorem each_flatMap {α : Type} {l : List α} {f : α → List Node} :
    Each P (l.flatMap f) ↔ ∀ a ∈ l, Each P (f a) := forall_mem_flatMap

@[simp] theorem each_map {α : Type} {l : List α} {f : α → Node} :
    Each P (l.map f) ↔ ∀ a ∈ l, P (f a) := forall_mem_map

@[simp] theorem each_armParts {arms : List Arm} : Each P (armParts arms) ↔
    ∀ a ∈ arms, P (.expr a.test) ∧ ∀ s ∈ a.body, P (.stmt s) := by
  simp only [armParts, each_flatMap, each_cons, each_map]

theorem Each.cons (h : P n) (hs : Each P ns) : Each P (n :: ns) := each_cons.2 ⟨h, hs⟩

theorem Each.mono (h : Each P ns) (hpq : ∀ n ∈ ns, P n → Q n) : Each Q ns :=
  fun n hn => hpq n hn (h n hn)

theorem Each.stmts {ss : List Stmt} (h : Each (fun m => P m ∧ Q m) (ss.map .stmt)) :
    ∀ s ∈ ss, P (.stmt s) :=
  fun s hs => (each_map.1 h s hs).1

theorem Each.arms {arms : List Arm} (h : Each (fun m => P m ∧ Q m) (armParts arms)) :
    (∀ a ∈ arms, P (.expr a.test)) ∧ ∀ a ∈ arms, ∀ s ∈ a.body, P (.stmt s) :=
  ⟨fun a ha => (each_armParts.1 h a ha).1.1, fun a ha s hs => ((each_armParts.1 h a ha).2 s hs).1⟩

theorem each_listed : Each P (listed (fun _ => .parts) n ns) ↔ P n ∧ Each P ns := each_cons

end Each

/-! ### Walks -/

section Walk

variable (enter : Node → Descent)

theorem walkExprs_eq (es : List Expr) : walkExprs enter es = es.flatMap (Expr.walk enter) := by
  induction es with
  | nil => rfl
  | cons e es ih => rw [walkExprs, ih, flatMap_cons]

theorem walkArgs_eq (args : List Arg) :
    walkArgs enter args = args.flatMap fun a => a.value.walk enter := by
  induction args with
  | nil => rfl
  | cons a args ih =>
    cases a
    rw [walkArgs, ih, flatMap_cons]
    rfl

theorem walkStmts_eq (ss : List Stmt) : walkStmts enter ss = ss.flatMap (Stmt.walk enter) := by
  induction ss with
  | nil => rfl
  | cons s ss ih => rw [walkStmts, ih, flatMap_cons]

theorem walkArms_eq (arms : List Arm) : walkArms enter arms =
    arms.flatMap fun a => a.test.walk enter ++ walkStmts enter a.body := by
  induction arms with
  | nil => rfl
  | cons a arms ih =>
    cases a
    rw [walkArms, ih, flatMap_cons]
    rfl

theorem walkFields_eq (fields : List Field) :
    walkFields enter fields = fields.flatMap fun f => f.initial.walk enter := by
  induction fields with
  | nil => rfl
  | cons f fields ih =>
    cases f
    rw [walkFields, ih, flatMap_cons]
    rfl

variable {enter}

theorem Node.walk_missing {n : Node} (h : n.isMissing = true) : n.walk enter = [] := by
  cases n with
  | program ss => cases h
  | expr e =>
    cases e with
    | missing => rfl
    | _ => cases h
  | stmt s =>
    cases s with
    | missing => rfl
    | _ => cases h

theorem Node.isMissing_of_mem_parts {m n : Node} (h : m ∈ n.parts) : n.isMissing = false := by
  cases n with
  | program => rfl
  | expr e => cases e <;> first | rfl | cases h
  | stmt s => cases s <;> first | rfl | cases h

/-- **A walk lists a node and then walks over parts of it.** -/
theorem Node.walk_eq {n : Node} (h : n.isMissing = false) :
    n.walk enter = n :: (n.below (enter n)).flatMap (Node.walk enter) := by
  cases n with
  | program ss =>
    simp only [Node.walk, listed, walkStmts_eq]
    cases henter : enter (.program ss) <;>
      simp [below, arguments, parts, flatMap_map, Node.walk]
  | expr e =>
    cases e with
    | missing => cases h
    | _ =>
      simp only [Node.walk, Expr.walk, listed]
      cases henter : enter _ <;>
        simp [below, arguments, parts, Expr.parts, flatMap_map, Node.walk, walkArgs_eq,
          walkExprs_eq, walkArms_eq, walkStmts_eq, armParts, flatMap_assoc]
  | stmt s =>
    cases s with
    | missing => cases h
    | _ =>
      simp only [Node.walk, Stmt.walk, listed]
      cases henter : enter _ <;>
        simp [below, arguments, parts, Stmt.parts, flatMap_map, Node.walk, walkFields_eq,
          walkArms_eq, walkStmts_eq, armParts, flatMap_assoc]

/-- All nodes of a tree: the first one, and all nodes of its parts. -/
theorem Node.walk_parts {n : Node} (h : n.isMissing = false) :
    n.walk (fun _ => .parts) = n :: n.parts.flatMap (Node.walk fun _ => .parts) :=
  walk_eq h

end Walk

theorem Node.each_parts {P : Node → Prop} {n : Node} (h : Each P (n.walk fun _ => .parts)) :
    Each (fun m => Each P (m.walk fun _ => .parts)) n.parts := by
  intro m hm
  rw [walk_parts (isMissing_of_mem_parts hm)] at h
  exact each_flatMap.1 (each_cons.1 h).2 m hm

/-! ### Induction -/

/-- A property that a node has if its parts have it. -/
def Node.Inherited (P : Node → Prop) : Prop := ∀ n : Node, Each P n.parts → P n

section Induct

variable {P : Node → Prop}

mutual

theorem Expr.induct (h : Node.Inherited P) : (e : Expr) → P (.expr e)
  | .missing | .number .. | .string .. | .bool .. | .na .. | .color .. | .name .. => h _ each_nil
  | .member _ e _ | .unary _ _ e => h _ (.cons (e.induct h) each_nil)
  | .index _ e f | .binary _ _ e f => h _ (.cons (e.induct h) (.cons (f.induct h) each_nil))
  | .call _ _ callee args _ => h _ (.cons (callee.induct h) (args_induct h args))
  | .ternary _ cond yes no =>
    h _ (.cons (cond.induct h) (.cons (yes.induct h) (.cons (no.induct h) each_nil)))
  | .array _ elements => h _ (exprs_induct h elements)
  | .switch _ subject arms => h _ (.cons (subject.induct h) (arms_induct h arms))
  | .ifElse _ cond yes no =>
    h _ (.cons (cond.induct h) (each_append.2 ⟨stmts_induct h yes, stmts_induct h no⟩))

theorem exprs_induct (h : Node.Inherited P) : (es : List Expr) → Each P (es.map .expr)
  | [] => each_nil
  | e :: es => .cons (e.induct h) (exprs_induct h es)

theorem args_induct (h : Node.Inherited P) : (args : List Arg) →
    Each P (args.map fun a => .expr a.value)
  | [] => each_nil
  | .mk _ value :: args => .cons (value.induct h) (args_induct h args)

theorem arms_induct (h : Node.Inherited P) : (arms : List Arm) → Each P (armParts arms)
  | [] => each_nil
  | .mk test body :: arms =>
    each_append.2 ⟨.cons (test.induct h) (stmts_induct h body), arms_induct h arms⟩

theorem fields_induct (h : Node.Inherited P) : (fields : List Field) →
    Each P (fields.map fun f => .expr f.initial)
  | [] => each_nil
  | .mk _ _ initial :: fields => .cons (initial.induct h) (fields_induct h fields)

theorem Stmt.induct (h : Node.Inherited P) : (s : Stmt) → P (.stmt s)
  | .missing | .brk _ | .cont _ | .importLib .. => h _ each_nil
  | .decl _ _ _ _ _ _ value | .ret _ value | .expr _ value => h _ (.cons (value.induct h) each_nil)
  | .assign _ target _ value => h _ (.cons (target.induct h) (.cons (value.induct h) each_nil))
  | .func _ _ _ body _ => h _ (stmts_induct h body)
  | .ifElse _ cond yes no =>
    h _ (.cons (cond.induct h) (each_append.2 ⟨stmts_induct h yes, stmts_induct h no⟩))
  | .whileLoop _ e body | .forIn _ _ _ e body => h _ (.cons (e.induct h) (stmts_induct h body))
  | .forCount _ _ init test update body _ =>
    h _ (.cons (init.induct h) (.cons (test.induct h) (.cons (update.induct h)
      (stmts_induct h body))))
  | .switch _ subject arms => h _ (.cons (subject.induct h) (arms_induct h arms))
  | .typeDecl _ _ fields => h _ (fields_induct h fields)
  | .exported _ inner => h _ (.cons (inner.induct h) each_nil)

theorem stmts_induct (h : Node.Inherited P) : (ss : List Stmt) → Each P (ss.map .stmt)
  | [] => each_nil
  | s :: ss => .cons (s.induct h) (stmts_induct h ss)

end

/-- **What a node inherits from its parts, all nodes have.** -/
theorem Node.induct (inherit : ∀ n : Node, Each P n.parts → P n) (n : Node) : P n := by
  cases n with
  | program ss => exact inherit _ (stmts_induct inherit ss)
  | expr e => exact e.induct inherit
  | stmt s => exact s.induct inherit

/-- Induction on the parts of nodes and the parts of these, under a condition that passes on to
parts. -/
theorem Node.induct_deep {H : Node → Prop} (hpart : ∀ n : Node, H n → Each H n.parts)
    (inherit : ∀ n : Node, H n → Each (fun m => P m ∧ Each P m.parts) n.parts → P n) (n : Node)
    (h : H n) : P n := by
  have hboth (n : Node) : H n → P n ∧ Each P n.parts := by
    induction n using Node.induct with
    | inherit n ih =>
      intro h
      have hparts : Each (fun m => P m ∧ Each P m.parts) n.parts :=
        fun m hm => ih m hm (hpart n h m hm)
      exact ⟨inherit n h hparts, hparts.mono fun _ _ hm => hm.1⟩
  exact (hboth n h).1

end Induct

/-! ### All nodes and the nodes of a walk -/

section Lists

variable {P : Node → Prop}

theorem each_exprs {es : List Expr} :
    Each P (walkExprs (fun _ => .parts) es) ↔ ∀ e ∈ es, Each P (e.walk fun _ => .parts) := by
  rw [walkExprs_eq, each_flatMap]

theorem each_args {args : List Arg} : Each P (walkArgs (fun _ => .parts) args) ↔
    ∀ a ∈ args, Each P (a.value.walk fun _ => .parts) := by
  rw [walkArgs_eq, each_flatMap]

theorem each_fields {fields : List Field} : Each P (walkFields (fun _ => .parts) fields) ↔
    ∀ f ∈ fields, Each P (f.initial.walk fun _ => .parts) := by
  rw [walkFields_eq, each_flatMap]

theorem each_stmts {enter : Node → Descent} {ss : List Stmt} :
    Each P (walkStmts enter ss) ↔ ∀ s ∈ ss, Each P (s.walk enter) := by
  rw [walkStmts_eq, each_flatMap]

theorem each_arms {arms : List Arm} :
    Each P (walkArms (fun _ => .parts) arms) ↔ ∀ a ∈ arms,
      Each P (a.test.walk fun _ => .parts) ∧ Each P (walkStmts (fun _ => .parts) a.body) := by
  simp only [walkArms_eq, each_flatMap, each_append]

end Lists

theorem Node.mem_parts_of_mem_below {m n : Node} {d : Descent} (h : m ∈ n.below d) :
    m ∈ n.parts := by
  cases d with
  | stop => cases h
  | parts => exact h
  | arguments =>
    rw [below] at h
    unfold arguments at h
    split at h
    · exact mem_cons_of_mem _ h
    · exact h

/-- What holds of all nodes of a tree holds of the nodes that a walk lists. -/
theorem Node.each_walk {P : Node → Prop} (enter : Node → Descent) (n : Node)
    (h : Each P (n.walk fun _ => .parts)) : Each P (n.walk enter) := by
  induction n using Node.induct with
  | inherit n ih =>
    cases hn : n.isMissing with
    | true =>
      rw [walk_missing hn]
      exact each_nil
    | false =>
      rw [walk_eq hn] at h ⊢
      obtain ⟨hnode, hparts⟩ := each_cons.1 h
      refine .cons hnode (each_flatMap.2 fun m hm => ?_)
      have hm := mem_parts_of_mem_below hm
      exact ih m hm (each_flatMap.1 hparts m hm)

theorem each_walkStmts {P : Node → Prop} (enter : Node → Descent) (ss : List Stmt)
    (h : Each P (walkStmts (fun _ => .parts) ss)) : Each P (walkStmts enter ss) :=
  each_stmts.2 fun s hs => Node.each_walk enter (.stmt s) (each_stmts.1 h s hs)

end Pine
