import Pine.Proofs.Lowering.Keeps
import Pine.Proofs.Tree.Blocks
import Pine.Proofs.Tree.Complete

/-!
# Following the lowering of trees

What holds of the script of a program is proved along its tree: of expressions, of the code of
statements, and of the blocks in which they stand. The way through the tree is the same whatever is
proved. It goes through the parts of a node in the order in which they are lowered, opens a scope
for each block, and meets a step that fails only where a tree is not complete.

A logic of trees says of the form that each statement takes what it owes to its parts. It then holds
of all nodes of a tree, and of bodies.
-/

namespace Pine

open List

/-! ### Parts of complete expressions -/

namespace Expr.Complete

variable {K : Nat → Prop} {e : Expr}

theorem not_isBroken (h : e.Complete K) : ¬ e.IsBroken := by
  cases e with
  | missing => exact h.elim
  | unary p op operand =>
    cases op with
    | other => exact h.1.elim
    | _ => exact id
  | _ => exact id

theorem part (h : e.Complete K) (hchoice : e.choice? = none) {part : Expr}
    (hpart : .expr part ∈ e.parts) : part.Complete K := by
  cases e <;> simp_all [Expr.Complete, parts, choice?, completeExprs_iff, completeArgs_iff] <;>
    grind

theorem object (h : e.Complete K) {q : Pos} {object : Expr} {property : String}
    (hpart : .expr (.member q object property) ∈ e.parts) : object.Complete K :=
  (Node.Complete.part (n := .expr e) h _ hpart).resolve_left Bool.false_ne_true

theorem choice (h : e.Complete K) {choice : Stmt} (hchoice : e.choice? = some choice) :
    choice.Complete K := by
  cases e <;> cases hchoice <;> exact h

end Expr.Complete

namespace Lowering

open Lower
open Script (safeName)

/-- The keys of the declarations that have a cell. -/
def HasCell (env : Context) (key : Nat) : Prop := (env.cells.lookup key).isSome

/-- The branches of a chain of choices, each of which comes from an arm. -/
def BranchesOf (E : Script.Expr → Prop) (B : List Stmt → List Script.Stmt → Prop)
    (arms : List Arm) (branches : List (Script.Expr × List Script.Stmt)) : Prop :=
  ∀ b ∈ branches, E b.1 ∧ ∃ a ∈ arms, B a.body b.2

/-- The branch for all other cases, which comes from an arm if there is a default arm. -/
def LastOf (B : List Stmt → List Script.Stmt → Prop) (arms : List Arm)
    (last : Option (List Script.Stmt)) : Prop :=
  (∀ code ∈ last, ∃ a ∈ arms, B a.body code) ∧ last.isSome = hasDefault arms

/-- A way to follow the lowering of trees at places `T`. Steps at a place are followed by `K`, and
may fail where `F` holds; `E` holds of expressions, `C` of steps that give code, `B` of the code of
a block and `O` of what follows a branch. The last three may depend on the statements of the source
and on whether the value of the last one is returned. -/
structure TreeLogic (env : Context) (F : Prop) {T : Type} (Ok : Node → Prop)
    (OkBody : List Stmt → Prop) (K : T → {α : Type} → Lower α → (α → Prop) → Prop)
    (E : T → Script.Expr → Prop) (B : T → Bool → List Stmt → List Script.Stmt → Prop)
    (O : T → Bool → List Stmt → Script.Otherwise → Prop)
    (C : T → Bool → List Stmt → Lower (List Script.Stmt) → Prop) : Prop where
  -- conditions on the source
  parts : ∀ n : Node, Ok n → Each Ok n.parts
  choice : ∀ {e choice}, Ok (.expr e) → e.choice? = some choice → Ok (.stmt choice)
  blocks : ∀ n : Node, Ok n → ∀ b ∈ n.blocks, OkBody b
  later : ∀ {s ss}, OkBody (s :: ss) → OkBody ss
  -- expressions
  steps : ∀ t, StepLogic F (K t)
  closed : ∀ t, ExprClosed (E t)
  name : ∀ t n, E t (.name n)
  warned : ∀ t severity feature line message,
    K t (warn severity feature line message) fun _ => True
  history : ∀ {t p q n offset o}, Ok (.expr (.index p (.name q n) offset)) → E t o →
    K t (pure (.history (safeName n) o)) (E t)
  value : ∀ {t s code}, B t true [s] code → E t (valueBlock s.exhaustive code)
  -- sequences and scopes
  bind : ∀ {t tail ss} {α : Type} {P : α → Prop} {step : Lower α} {next}, K t step P →
    (∀ a, P a → C t tail ss (next a)) → C t tail ss (step >>= next)
  failed : F → ∀ {t tail ss} pos gap, C t tail ss (fail pos gap)
  scope : ∀ {t tail ss step} {α : Type} {f : List Script.Stmt → α} {Q : α → Prop},
    (∀ u, C u tail ss step) → (∀ code, B t tail ss code → Q (f code)) →
    K t (inScope (step >>= fun code => pure (f code))) Q
  nil : ∀ {t tail}, C t tail [] (pure [])
  cons : ∀ {t tail s ss first rest}, OkBody (s :: ss) → (ss = [] → rest = pure []) →
    C t (tail && ss.isEmpty) [s] first → (∀ u, C u tail ss rest) →
    C t tail (s :: ss) (do return (← first) ++ (← rest))
  -- statements
  decl : ∀ {t tail p key name names qualifier type value v},
    (F ∨ Stmt.Complete (HasCell env) (.decl p key name names qualifier type value)) → E t v →
    C t tail [.decl p key name names qualifier type value] do
      let code ← declStmts env p key name names qualifier v
      return code ++ if tail then [.ret (declaredValue name names)] else []
  assign : ∀ {t tail p q n op value v}, E t v → C t tail [.assign p (.name q n) op value] do
    let stores ← afterAssign n
    return .assign (.name (safeName n)) op v :: stores ++
      if tail then [.ret (.name (safeName n))] else []
  assignMember : ∀ {t tail p q object property op value v},
    K t (expr env false (.member q object property)) (E t) →
    K t (expr env false object) (E t) → E t v →
    C t tail [.assign p (.member q object property) op value] do
      return [.assign (← expr env false (.member q object property)) op v]
  func : ∀ {t tail p name params stmts isMethod rest}, (∀ u, C u true stmts rest) →
    C t tail [.func p name params stmts isMethod] do
      let code ← inScope do
        let _ ← defineAll .param (params.map Param.name)
        let first ← afterDeclareAll env (params.map Param.name)
        return first ++ (← rest)
      return .function (safeName name) ((params.map Param.name).map safeName) code ::
        shims env name params isMethod
  ifElse : ∀ {t tail p cond yes no c code o}, E t c → B t tail yes code → O t tail no o →
    C t tail [.ifElse p cond yes no] (pure [.ifElse c code o])
  loop : ∀ {t tail s stmts names make rest}, Ok (.stmt s) → LoopOf (E t) s stmts names make →
    (∀ u, C u false stmts rest) → C t tail [s] (loopStmts env names make rest)
  retVoid : ∀ {t tail p value}, value.isMissing = true → C t tail [.ret p value] (pure [.retVoid])
  ret : ∀ {t tail p value v}, value.isMissing = false → E t v →
    C t tail [.ret p value] (pure [.ret v])
  brk : ∀ {t tail p}, C t tail [.brk p] (pure [.brk])
  cont : ∀ {t tail p}, C t tail [.cont p] (pure [.cont])
  choices : ∀ {t tail p subject arms branches last}, BranchesOf (E t) (B t tail) arms branches →
    LastOf (B t tail) arms last → C t tail [.switch p subject arms] (pure (chain branches last))
  subject : ∀ {t tail p subject arms v} {branches : Nat → Lower (List (Script.Expr × _))} {last},
    E t v →
    (∀ u n, K u (branches n) (BranchesOf (E u) (B u tail) arms)) →
    (∀ u, K u last (LastOf (B u tail) arms)) →
    C t tail [.switch p subject arms] do
      let n ← freshSwitch
      let branches ← branches n
      return .const (Script.subjectName n) v :: chain branches (← last)
  native : ∀ {t tail p subject arms v cases}, E t v → hasLoopJump arms = false →
    CasesOf (E t) (B t tail) arms cases →
    C t tail [.switch p subject arms] (pure [.switch v cases])
  typeDecl : ∀ {t tail p name fields},
    (∀ f ∈ fields, f.initial ≠ .missing → K t (expr env false f.initial) (E t)) →
    C t tail [.typeDecl p name fields] do return [.classDecl (safeName name) (← slots env fields)]
  importLib : ∀ {t tail p path localName}, Ok (.stmt (.importLib p path localName)) →
    C t tail [.importLib p path localName] (stmt env tail (.importLib p path localName))
  exported : ∀ {t tail p decl step}, C t false [decl] step → C t tail [.exported p decl] step
  silent : ∀ {t tail p value}, isSilent env value = true → C t tail [.expr p value] (pure [])
  exprStmt : ∀ {t tail p value v}, isSilent env value = false → E t v →
    C t tail [.expr p value] (pure [if tail then .ret v else .expr v])
  -- what follows a branch
  nothing : ∀ {t tail}, O t tail [] .nothing
  block : ∀ {t tail ss code}, B t tail ss code → O t tail ss (.block code)
  elseIf : ∀ {t tail p cond yes no c code o}, E t c → B t tail yes code → O t tail no o →
    O t tail [.ifElse p cond yes no] (.elseIf c code o)

section

variable {env : Context} {F : Prop} {T : Type} {Ok : Node → Prop} {OkBody : List Stmt → Prop}
  {K : T → {α : Type} → Lower α → (α → Prop) → Prop} {E : T → Script.Expr → Prop}
  {B : T → Bool → List Stmt → List Script.Stmt → Prop}
  {O : T → Bool → List Stmt → Script.Otherwise → Prop}
  {C : T → Bool → List Stmt → Lower (List Script.Stmt) → Prop}

variable (env F OkBody K E O C) in
/-- What a logic of trees says of a node: a complete one is lowered as it says. -/
def LoweredAs : Node → Prop
  | .program _ => True
  | .expr e => (F ∨ e.Complete (HasCell env)) → ∀ t bare, K t (expr env bare e) (E t)
  | .stmt s => (F ∨ s.Complete (HasCell env)) → ∀ t tail, C t tail [s] (stmt env tail s) ∧
      (OkBody [s] → K t (elseBranch env tail [s]) (O t tail [s]))

namespace TreeLogic

variable (h : TreeLogic env F Ok OkBody K E B O C)

include h

/-! ### Bodies and branches -/

theorem body : {ss : List Stmt} → (∀ s ∈ ss, LoweredAs env F OkBody K E O C (.stmt s)) →
    OkBody ss → (F ∨ CompleteStmts (HasCell env) ss) → ∀ t tail,
    C t tail ss (Lowering.body env tail ss)
  | [], _, _, _, _, _ => h.nil
  | _ :: _, hs, ho, hc, t, tail => by
    obtain ⟨hfirst, hrest⟩ := forall_mem_cons.1 hs
    exact h.cons ho (fun hss => hss ▸ rfl) (hfirst (hc.imp_right And.left) t _).1 fun u =>
      body hrest (h.later ho) (hc.imp_right And.right) u tail

theorem inScope {t : T} {tail : Bool} {ss : List Stmt} {step : Lower (List Script.Stmt)}
    {Q : List Script.Stmt → Prop} (hs : ∀ u, C u tail ss step)
    (hQ : ∀ code, B t tail ss code → Q code) : K t (Lower.inScope step) Q := by
  have hscope := h.scope (t := t) (f := id) hs hQ
  rwa [show (step >>= fun code => pure (id code)) = step from bind_pure step] at hscope

theorem elseBranch {ss : List Stmt} (hs : ∀ s ∈ ss, LoweredAs env F OkBody K E O C (.stmt s))
    (ho : OkBody ss) (hc : F ∨ CompleteStmts (HasCell env) ss) (t : T) (tail : Bool) :
    K t (Lowering.elseBranch env tail ss) (O t tail ss) := by
  match ss with
  | [] => exact (h.steps t).pure h.nothing
  | [s] => exact (hs s (.head _) (hc.imp_right And.left) t tail).2 ho
  | s :: s' :: ss =>
    rw [elseBranch_eq tail (by simp)]
    exact h.scope (fun u => h.body hs ho hc u tail) fun _ => h.block

/-- The parts of a choice. -/
theorem branches {p : Pos} {cond : Expr} {yes no : List Stmt}
    (ho : Ok (.stmt (.ifElse p cond yes no)))
    (ih : Each (fun m => LoweredAs env F OkBody K E O C m ∧
      Each (LoweredAs env F OkBody K E O C) m.parts) (Stmt.ifElse p cond yes no).parts)
    (hc : F ∨ (Stmt.ifElse p cond yes no).Complete (HasCell env)) (t : T) (tail : Bool) :
    K t (Lowering.expr env true cond) (E t) ∧
      K t (Lower.inScope (Lowering.body env tail yes)) (B t tail yes) ∧
      K t (Lowering.elseBranch env tail no) (O t tail no) := by
  obtain ⟨⟨hcond, -⟩, hparts⟩ := each_cons.1 ih
  obtain ⟨hyes, hno⟩ := each_append.1 hparts
  obtain ⟨hyesOk, hnoOk⟩ := forall_mem_cons.1 (h.blocks _ ho)
  exact ⟨hcond (hc.imp_right And.left) t true,
    h.inScope (fun u => h.body hyes.stmts hyesOk (hc.imp_right (·.2.1)) u tail) fun _ => id,
    h.elseBranch hno.stmts (forall_mem_singleton.1 hnoOk) (hc.imp_right (·.2.2)) t tail⟩

/-! ### Statements -/

/-- A switch, wherever its subject is kept. -/
theorem switch {p : Pos} {subject : Expr} {arms : List Arm} {t : T} {tail : Bool}
    (hs : subject ≠ .missing → ∀ bare, K t (Lowering.expr env bare subject) (E t))
    (ht : ∀ u, ∀ a ∈ arms, a.test ≠ .missing → ∀ bare, K u (Lowering.expr env bare a.test) (E u))
    (hb : ∀ u, ∀ a ∈ arms, C u tail a.body (Lowering.body env tail a.body)) :
    C t tail [.switch p subject arms] (stmt env tail (.switch p subject arms)) := by
  have hany (u : T) (a : Arm) (ha : a ∈ arms) :
      K u (Lower.inScope (Lowering.body env tail a.body)) fun code =>
        ∃ a ∈ arms, B u tail a.body code :=
    h.inScope (fun u => hb u a ha) fun _ hcode => ⟨a, ha, hcode⟩
  have hbranches (u : T) (n : Option Nat) :
      K u (chainArms env tail n arms) (BranchesOf (E u) (B u tail) arms) :=
    keeps_chainArms (h.steps u) tail n
      (fun _ _ _ he => (h.closed u).binary _ _ _ (h.name u _) he) (ht u) (hany u)
  have hlast (u : T) : K u (lastBody (defaultArm env tail arms)) (LastOf (B u tail) arms) :=
    keeps_lastBody (h.steps u) tail (hany u)
  rw [stmt]
  unfold switchStmts
  split
  · exact h.bind (hbranches t none) fun _ hb => h.bind (hlast t) fun _ hl => h.choices hb hl
  · next hm =>
    have hsubject := hs fun heq => hm (congrArg Expr.isMissing heq)
    split
    · exact h.bind (hsubject false) fun _ hv =>
        h.subject hv (fun u n => hbranches u (some n)) hlast
    · next hjumps =>
      have hnative := keeps_nativeArms (B := B t tail) (h.steps t) tail
        (fun a ha hm => ht t a ha hm true) fun a ha => h.inScope (fun u => hb u a ha) fun _ => id
      exact h.bind (hsubject true) fun _ hv => h.bind hnative fun _ => h.native hv
        (by simpa using hjumps)

/-- A statement is lowered as its parts and the parts of these are. -/
theorem stmt {s : Stmt} (ho : Ok (.stmt s))
    (ih : Each (fun m => LoweredAs env F OkBody K E O C m ∧
      Each (LoweredAs env F OkBody K E O C) m.parts) s.parts)
    (hc : F ∨ s.Complete (HasCell env)) (t : T) (tail : Bool) :
    C t tail [s] (Lowering.stmt env tail s) := by
  have hblocks := h.blocks _ ho
  cases s with
  | missing => exact h.failed (hc.resolve_right id) _ _
  | decl p key name names qualifier type value =>
    exact h.bind ((each_cons.1 ih).1.1 (hc.imp_right And.left) t false) fun _ hv => h.decl hc hv
  | assign p target op value =>
    obtain ⟨⟨htarget, hobject⟩, hvalue⟩ := each_cons.1 ih
    rw [Lowering.stmt]
    refine h.bind ((each_cons.1 hvalue).1.1 (hc.imp_right (·.2.2)) t false) fun v hv => ?_
    cases target with
    | name q n => exact h.assign hv
    | member q object property =>
      exact h.assignMember (htarget (hc.imp_right (·.2.1)) t false)
        ((each_cons.1 hobject).1 (hc.imp_right (·.2.1)) t false) hv
    | _ => exact h.failed (hc.resolve_right And.left) _ _
  | func p name params stmts isMethod =>
    exact h.func fun u => h.body ih.stmts (forall_mem_singleton.1 hblocks) hc u true
  | ifElse p cond yes no =>
    obtain ⟨hcond, hyes, hno⟩ := h.branches ho ih hc t tail
    exact h.bind hcond fun _ hc => h.bind hyes fun _ hy => h.bind hno fun _ hn => h.ifElse hc hy hn
  | whileLoop p cond stmts =>
    obtain ⟨⟨hcond, -⟩, hstmts⟩ := each_cons.1 ih
    refine h.bind (hcond (hc.imp_right And.left) t true) fun c hv => ?_
    rw [loopStmts_nil fun _ => .whileLoop c]
    exact h.loop ho (.whileLoop hv) fun u =>
      h.body hstmts.stmts (forall_mem_singleton.1 hblocks) (hc.imp_right And.right) u false
  | forCount p counter init test update stmts eitherWay =>
    -- the bounds and the step are parts of the three statements that the loop holds
    obtain ⟨⟨-, hinit⟩, ih⟩ := each_cons.1 ih
    obtain ⟨⟨-, htest⟩, ih⟩ := each_cons.1 ih
    obtain ⟨⟨-, hupdate⟩, hstmts⟩ := each_cons.1 ih
    have hbody := h.body hstmts.stmts (forall_mem_singleton.1 hblocks)
      (hc.imp_right (·.2.2.2.2))
    cases init with
    | decl q k n ns m ty first =>
      cases update with
      | assign q' target op step =>
        rw [Lowering.stmt]
        refine h.bind (hinit _ (.head _) (hc.imp_right (·.2.1.1)) t false) fun _ hfirst => ?_
        cases test with
        | binary q'' op' left last =>
          refine h.bind (htest _ (.tail _ (.head _)) (hc.imp_right (·.2.2.1.2)) t false)
            fun last hlast => h.bind (hupdate _ (.tail _ (.head _))
              (hc.imp_right (·.2.2.2.1.2.2)) t false) fun step hstep => ?_
          cases eitherWay with
          | true =>
            exact loopStmts_singleton counter ▸ h.loop ho (.forEither hfirst hlast) fun u =>
              hbody u false
          | false =>
            exact loopStmts_singleton counter ▸ h.loop ho (.forStep _ _ hfirst hlast hstep)
              fun u => hbody u false
        | _ => exact h.failed (hc.resolve_right (·.1.2.1)) _ _
      | _ => exact h.failed (hc.resolve_right (·.1.2.2)) _ _
    | _ => exact h.failed (hc.resolve_right (·.1.1)) _ _
  | forIn p index item collection stmts =>
    obtain ⟨⟨hcollection, -⟩, hstmts⟩ := each_cons.1 ih
    have hbody (u : T) := h.body hstmts.stmts (forall_mem_singleton.1 hblocks)
      (hc.imp_right And.right) u false
    refine h.bind (hcollection (hc.imp_right And.left) t false) fun _ hv => ?_
    by_cases hindex : index = ""
    · subst hindex
      exact h.loop ho (.forOf hv) hbody
    · simp only [if_neg hindex]
      exact h.loop ho (.forEntries hv) hbody
  | ret p value =>
    rw [stmt_ret]
    split
    · next hm => exact h.retVoid hm
    · next hm =>
      have hvalue := hc.imp_right (·.resolve_left hm)
      exact h.bind ((each_cons.1 ih).1.1 hvalue t true) fun _ => h.ret (by simpa using hm)
  | brk => exact h.brk
  | cont => exact h.cont
  | switch p subject arms =>
    obtain ⟨⟨hsubject, -⟩, harms⟩ := each_cons.1 ih
    obtain ⟨htests, hbodies⟩ := harms.arms
    have hcomplete (a : Arm) (ha : a ∈ arms) := hc.imp_right fun hc => completeArms_iff.1 hc.2 a ha
    refine h.switch (fun hm => ?_) (fun u a ha hm => ?_) fun u a ha =>
      h.body (hbodies a ha) (forall_mem_map.1 hblocks a ha)
        ((hcomplete a ha).imp_right And.right) u tail
    · exact hsubject (hc.imp_right (·.1.resolve_left (hm ∘ Expr.isMissing_iff.1))) t
    · exact htests a ha
        ((hcomplete a ha).imp_right (·.1.resolve_left (hm ∘ Expr.isMissing_iff.1))) u
  | typeDecl p name fields =>
    refine h.typeDecl fun f hf hm => (each_map.1 ih f hf).1 ?_ t false
    exact hc.imp_right fun hc =>
      (completeFields_iff.1 hc f hf).resolve_left (hm ∘ Expr.isMissing_iff.1)
  | importLib => exact h.importLib ho
  | exported p decl => exact h.exported ((each_cons.1 ih).1.1 hc t false).1
  | expr p value =>
    have hvalue := (each_cons.1 ih).1.1 hc t true
    unfold Lowering.stmt
    split
    · next hs => exact h.silent hs
    · next hs => exact h.bind hvalue fun _ => h.exprStmt (by simpa using hs)

/-! ### Nodes -/

theorem nameExpr (t : T) (scopes : Scopes) (n : String) : E t (Lowering.nameExpr env scopes n) := by
  unfold Lowering.nameExpr
  split
  · exact h.name t _
  · split
    · exact (h.closed t).atom _
    · split
      · exact h.name t _
      · split
        · exact (h.closed t).atom _
        · exact h.name t _

/-- **Every node** is lowered as the logic says. -/
theorem node (n : Node) (ho : Ok n) : LoweredAs env F OkBody K E O C n := by
  refine Node.induct_deep (H := Ok) h.parts (fun n ho ih => ?_) n ho
  cases n with
  | program => trivial
  | expr e =>
    intro hc t bare
    refine keeps_expr (h.steps t) (h.closed t) (h.warned t) bare
      (fun hbroken => hc.resolve_right fun hc => hc.not_isBroken hbroken)
      (fun p n heq => heq ▸ (h.steps t).get fun s => (h.steps t).pure (h.nameExpr t s.scopes n))
      (fun _ _ _ _ heq _ => h.history (heq ▸ ho)) (fun _ _ _ _ _ _ _ _ _ => h.name t _)
      (fun choice hchoice => ?_)
      (fun hchoice part hm => (ih _ hm).1 (hc.imp_right (·.part hchoice hm)) t)
      fun q object property hm => (ih _ hm).2 _ (.head _) (hc.imp_right (·.object hm)) t
    rw [expr_choice bare hchoice]
    change Each _ e.parts at ih
    rw [Expr.parts_of_choice hchoice] at ih
    exact h.scope
      (fun u => h.stmt (h.choice ho hchoice) ih (hc.imp_right (·.choice hchoice)) u true)
      fun _ => h.value
  | stmt s =>
    refine fun hc t tail => ⟨h.stmt ho ih hc t tail, fun hbody => ?_⟩
    by_cases hchain : ∀ q cond yes no, [s] ≠ [.ifElse q cond yes no]
    · rw [elseBranch_eq tail hchain, Lowering.body]
      exact h.scope (fun u => h.cons hbody (fun _ => rfl) (h.stmt ho ih hc u _) fun _ => h.nil)
        fun _ => h.block
    · cases s with
      | ifElse p cond yes no =>
        obtain ⟨hcond, hyes, hno⟩ := h.branches ho ih hc t tail
        exact (h.steps t).bind hcond fun _ hc => (h.steps t).bind hyes fun _ hy =>
          (h.steps t).bind hno fun _ hn => (h.steps t).pure (h.elseIf hc hy hn)
      | _ => simp at hchain

end TreeLogic

end

end Lowering

end Pine
