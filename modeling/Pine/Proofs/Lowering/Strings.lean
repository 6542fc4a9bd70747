import Pine.Proofs.Lowering.Forms
import Pine.Proofs.Tree.Named

/-!
# Lowering trees with other strings

Lowering a well-named tree and the same tree with other strings gives scripts that agree up to their
strings, or fails on both. The proof follows the recursion of lowering. Each rule runs both sides in
step: they take the same branches, since no branch looks at a string, and a string that is lowered
becomes a literal.
-/

namespace Pine

open List

namespace Lowering

open Lower Script

variable {A : String → Prop} {r : Rewording} {env env' : Context}

/-! ### Declarations -/

theorem hollowStmts_shims (name : String) (params : List Param) (isMethod : Bool) :
    hollowStmts (shims env name params isMethod) = shims env name params isMethod := by
  unfold shims
  split
  · split <;> rfl
  · rfl

section Declarations

variable (h : env.Twin A r env')

include h

/-- A name that is bound already is assigned to. -/
theorem assigned_both {name : String} (hn : isIdentifier name = true)
    {value value' : Script.Expr} (hv : LikeExpr A value value') : Both (LikeStmts A)
      (do return .assign (.name (safeName name)) .set value :: (← afterAssign name))
      (do return .assign (.name (safeName name)) .set value' :: (← afterAssign name)) := by
  have hset : A AssignOp.set.scriptText := h.plain _ (by decide)
  refine (both_afterAssign (A := A) name).bind fun _ _ h₁ => both_pure ⟨?_, ?_⟩
  · simp [stmtLeaves, Stmt.leaves, Expr.leaves, Leaf.Spelled, hset, isIdentifier_safeName hn,
      hv.spelled, h₁.spelled]
  · simp [hollowStmts, Stmt.hollow, hv.hollow, h₁.hollow]

theorem plainDecl_both {name : String} (hn : isIdentifier name = true)
    {value value' : Script.Expr} (hv : LikeExpr A value value') :
    Both (LikeStmts A) (plainDecl env name value) (plainDecl env' name value') := by
  have hsafe := isIdentifier_safeName hn
  refine (both_define hn .plain).bind fun existed _ he => ?_
  subst he
  cases existed with
  | true => exact assigned_both h hn hv
  | false =>
    refine (both_afterDeclare h hn).bind fun _ _ h₁ => both_pure ⟨?_, ?_⟩
    · simp [stmtLeaves, Stmt.leaves, Leaf.Spelled, hsafe, hv.spelled, h₁.spelled]
    · simp [hollowStmts, Stmt.hollow, hv.hollow, h₁.hollow]

theorem persistentDecl_both (p q : Pos) (key : Nat) {name : String} (hn : isIdentifier name = true)
    {value value' : Script.Expr} (hv : LikeExpr A value value') :
    Both (LikeStmts A) (persistentDecl env p key name value)
      (persistentDecl env' q key name value') := by
  have hsafe := isIdentifier_safeName hn
  refine (both_define hn .persistent).bind fun existed _ he => ?_
  subst he
  cases existed with
  | true => exact assigned_both h hn hv
  | false =>
    simp only [h.cells]
    cases hc : env.cells.lookup key with
    | none => exact both_fail _ _ _ _
    | some cell =>
      have hcell := h.cell key cell hc
      have hkeep (symbol : Symbol) (hs : symbol.Spelled) :
          Symbol.Spelled { symbol with cell := cell } :=
        ⟨hs.1, fun _ hm => Option.some.inj hm ▸ hcell⟩
      refine (both_updateSymbol name hkeep).bind fun _ _ _ => ?_
      refine (both_afterDeclare h hn).bind fun _ _ h₁ => both_pure ⟨?_, ?_⟩
      · simp [stmtLeaves, Stmt.leaves, Leaf.Spelled, hsafe, hcell, hv.spelled, h₁.spelled]
      · simp [hollowStmts, Stmt.hollow, hv.hollow, h₁.hollow]

theorem afterTuple_both : {names : List (String × Bool)} →
    (∀ n ∈ names, isIdentifier n.1 = true) →
    Both (LikeStmts A) (afterTuple env names) (afterTuple env' names)
  | [], _ => both_pure ⟨spelled_nil, rfl⟩
  | (name, existed) :: rest, hn => by
    obtain ⟨hn, hrest⟩ := forall_mem_cons.1 hn
    have hrest (a b : List Script.Stmt) (h₁ : LikeStmts A a b) :
        Both (LikeStmts A) (do return a ++ (← afterTuple env rest))
          (do return b ++ (← afterTuple env' rest)) := by
      refine (afterTuple_both hrest).bind fun _ _ h₂ => both_pure ⟨?_, ?_⟩
      · simp [h₁.spelled, h₂.spelled]
      · simp [h₁.hollow, h₂.hollow]
    cases existed with
    | true => exact (both_afterAssign name).bind hrest
    | false => exact (both_afterDeclare h hn).bind hrest

theorem tupleDecl_both {names : List String} (hn : ∀ n ∈ names, isIdentifier n = true)
    {value value' : Script.Expr} (hv : LikeExpr A value value') :
    Both (LikeStmts A) (tupleDecl env names value) (tupleDecl env' names value') := by
  refine (both_defineAll .plain hn).bind fun existed _ he => ?_
  subst he
  have hnames : ∀ n ∈ names.zip existed, isIdentifier n.1 = true :=
    fun n hm => hn n.1 (of_mem_zip hm).1
  refine (afterTuple_both h hnames).bind fun _ _ h₁ => both_pure ⟨?_, ?_⟩
  · simp [spelled_tupleStmts hn existed hv.spelled, h₁.spelled]
  · simp [hollowStmts_tupleStmts, hv.hollow, h₁.hollow]

theorem declStmts_both (p q : Pos) (key : Nat) {name : String} {names : List String}
    (hn : ∀ n ∈ Stmt.declared name names, isIdentifier n = true) (qualifier : String)
    {value value' : Script.Expr} (hv : LikeExpr A value value') :
    Both (LikeStmts A) (declStmts env p key name names qualifier value)
      (declStmts env' q key name names qualifier value') := by
  unfold declStmts
  unfold Stmt.declared at hn
  split
  · next hne =>
    rw [if_neg (by simpa using hne)] at hn
    exact tupleDecl_both h hn hv
  · next hempty =>
    rw [if_pos (by simpa using hempty)] at hn
    have hname := hn name (by simp)
    split
    · exact persistentDecl_both h p q key hname hv
    · exact plainDecl_both h hname hv

theorem shims_twin (name : String) (params : List Param) (isMethod : Bool) :
    shims env' name params isMethod = shims env name params isMethod := by
  unfold shims
  split
  · next first _ =>
    rw [record?_reword h]
    cases env.declarations.record? (baseType first.type) <;> rfl
  · rfl

theorem spelled_shims {name : String} (hn : isIdentifier name = true) (params : List Param)
    (isMethod : Bool) : Spelled A (stmtLeaves (shims env name params isMethod)) := by
  unfold shims
  split
  · next first _ =>
    cases hr : env.declarations.record? (baseType first.type) with
    | none => exact spelled_nil
    | some record =>
      have hargs : isIdentifier "args" = true := by decide
      simp [stmtLeaves, Stmt.leaves, Leaf.Spelled, hargs, isIdentifier_safeName hn,
        isIdentifier_safeMember hn, isIdentifier_safeName (isIdentifier_record? h hr)]
  · exact spelled_nil

end Declarations

/-! ### Shapes of the source -/

theorem ignoresStrings_outsideLoops : IgnoresStrings r outsideLoops
  | .program _ => rfl
  | .expr e => by cases e <;> rfl
  | .stmt s => by cases s <;> rfl

theorem isJump_reword (n : Node) : isJump (n.reword r) = isJump n := by
  cases n with
  | program _ => rfl
  | expr e => rfl
  | stmt s => cases s <;> rfl

theorem hasLoopJump_reword (arms : List Arm) :
    hasLoopJump (rewordArms r arms) = hasLoopJump arms := by
  induction arms with
  | nil => rfl
  | cons arm arms ih =>
    obtain ⟨test, body⟩ := arm
    unfold hasLoopJump at ih ⊢
    rw [rewordArms, any_cons, any_cons, ih]
    congr 1
    change (walkStmts outsideLoops (rewordStmts r body)).any isJump = _
    rw [walkStmts_reword ignoresStrings_outsideLoops, any_map]
    congr 1
    funext n
    exact isJump_reword n

theorem hasDefault_reword (arms : List Arm) :
    hasDefault (rewordArms r arms) = hasDefault arms := by
  induction arms with
  | nil => rfl
  | cons arm arms ih =>
    obtain ⟨test, _⟩ := arm
    unfold hasDefault at ih ⊢
    rw [rewordArms, any_cons, any_cons, ih]
    exact congrArg (· || _) (test.isMissing_reword r)

theorem endsInElse_reword (ss : List Stmt) : endsInElse (rewordStmts r ss) = endsInElse ss := by
  fun_induction endsInElse ss with
  | case1 => simp [rewordStmts, endsInElse]
  | case2 p cond yes no ih => simpa only [rewordStmts, Stmt.reword, endsInElse] using ih
  | case3 ss hnil hif =>
    match ss with
    | [] => exact (hnil rfl).elim
    | s :: t :: ss => simp [rewordStmts, endsInElse]
    | [s] =>
      cases s with
      | ifElse p cond yes no => exact (hif p cond yes no rfl).elim
      | _ => simp [rewordStmts, Stmt.reword, endsInElse]

/-! ### Switches -/

theorem lastBody_both {default default' : Option (Lower (List Script.Stmt))}
    (hd : Option.Rel (Both (LikeStmts A)) default default') :
    Both (LikeLast A) (lastBody default) (lastBody default') := by
  cases hd with
  | none => exact both_pure ⟨spelled_nil, rfl⟩
  | some hbody =>
    exact hbody.bind fun _ _ h₁ => both_pure ⟨h₁.spelled, congrArg some h₁.hollow⟩

/-- Two switches agree if their subjects and their arms do. -/
theorem switchStmts_both {subject subject' : Expr} {bare bare' wrapped wrapped' : Lower Script.Expr}
    {native native' : Lower (List Script.Case)}
    {branches branches' : Option Nat → Lower (List (Script.Expr × List Script.Stmt))}
    {default default' : Option (Lower (List Script.Stmt))} (jumps : Bool)
    (hs : subject'.isMissing = subject.isMissing) (hbare : Both (LikeExpr A) bare bare')
    (hwrapped : Both (LikeExpr A) wrapped wrapped') (hn : Both (LikeCases A) native native')
    (hb : ∀ n, Both (LikeBranches A) (branches n) (branches' n))
    (hd : Option.Rel (Both (LikeStmts A)) default default') :
    Both (LikeStmts A) (switchStmts subject bare wrapped native branches default jumps)
      (switchStmts subject' bare' wrapped' native' branches' default' jumps) := by
  have hlast := lastBody_both hd
  unfold switchStmts
  rw [hs]
  split
  · refine (hb none).bind fun _ _ h₁ => hlast.bind fun _ _ h₂ => both_pure ⟨?_, ?_⟩
    · exact spelled_chain h₁.spelled h₂.spelled
    · rw [hollowStmts_chain, hollowStmts_chain, h₁.hollow, h₂.hollow]
  · split
    · refine hwrapped.bind fun _ _ hv => both_freshSwitch.bind fun n _ he => ?_
      subst he
      refine (hb (some n)).bind fun _ _ h₁ => hlast.bind fun _ _ h₂ => both_pure ⟨?_, ?_⟩
      · simp [stmtLeaves, Stmt.leaves, Leaf.Spelled, isIdentifier_subjectName, hv.spelled,
          spelled_chain h₁.spelled h₂.spelled]
      · simp only [hollowStmts, Stmt.hollow, hollowStmts_chain, hv.hollow, h₁.hollow, h₂.hollow]
    · refine hbare.bind fun _ _ hv => hn.bind fun _ _ h₁ => both_pure ⟨?_, ?_⟩
      · simp [stmtLeaves, Stmt.leaves, hv.spelled, h₁.spelled]
      · simp only [hollowStmts, Stmt.hollow, hv.hollow, h₁.hollow]

/-! ### Calls -/

theorem warnArity_both (b : Builtin) (name : String) (line line' : Int) (count : Nat) :
    Both (fun _ _ => True) (warnArity b name line count) (warnArity b name line' count) := by
  unfold warnArity
  split
  · exact both_warn _ _ _ _ _ _ _ _
  · exact both_pure trivial

theorem warnUnknown_both (name : String) (line line' : Int) :
    Both (fun _ _ => True) (warnUnknown env name line) (warnUnknown env' name line') := by
  unfold warnUnknown
  split
  · exact both_warn _ _ _ _ _ _ _ _
  · exact both_pure trivial

theorem countP_name_rewordArgs (args : List Arg) :
    (rewordArgs r args).countP (·.name = "") = args.countP (·.name = "") := by
  have hcount (as : List Arg) : as.countP (·.name = "") = (as.map Arg.name).countP (· = "") := by
    rw [countP_map]
    rfl
  rw [hcount, hcount, map_name_rewordArgs]

theorem likeExpr_undefined (h : env.Twin A r env') : LikeExpr A .undefined .undefined :=
  ⟨spelled_cons.2 ⟨h.plain _ (by decide), spelled_nil⟩, rfl⟩

theorem likeExpr_nan (h : env.Twin A r env') : LikeExpr A .nan .nan :=
  ⟨spelled_cons.2 ⟨h.plain _ (by decide), spelled_nil⟩, rfl⟩

section Calls

variable (h : env.Twin A r env') {args : List Arg}
  (hpos : Both (LikeExprs A) (positionalArgs env args) (positionalArgs env' (rewordArgs r args)))
  (hnamed : ∀ keep, Both (LikeNamed A) (namedArgs env keep args)
    (namedArgs env' keep (rewordArgs r args)))

include h hpos hnamed

/-- The call of a value with arguments in the order of parameters, some of which may stand in front
of those of the call. -/
theorem arranged_both {target target' : Script.Expr} (ht : LikeExpr A target target')
    {front front' : List Script.Expr} (hf : LikeExprs A front front') (params : List String) :
    Both (LikeExpr A)
      (do
        let positional ← positionalArgs env args
        let known ← namedArgs env (· ∈ params) args
        let extra ← namedArgs env (· ∉ params) args
        return .call target (arrange params (front ++ positional) known extra))
      (do
        let positional ← positionalArgs env' (rewordArgs r args)
        let known ← namedArgs env' (· ∈ params) (rewordArgs r args)
        let extra ← namedArgs env' (· ∉ params) (rewordArgs r args)
        return .call target' (arrange params (front' ++ positional) known extra)) := by
  refine hpos.bind fun _ _ h₁ => (hnamed _).bind fun _ _ h₂ => (hnamed _).bind fun _ _ h₃ =>
    both_pure ⟨?_, ?_⟩
  · have hall := spelled_append.2 ⟨hf.spelled, h₁.spelled⟩
    rw [← exprLeaves_append] at hall
    exact spelled_append.2 ⟨ht.spelled,
      spelled_arrange (h.plain _ (by decide)) params hall h₂.spelled h₃.spelled⟩
  · simp only [Expr.hollow, hollowExprs_arrange, hollowExprs_append, ht.hollow, hf.hollow,
      h₁.hollow, h₂.hollow, h₃.hollow]

/-- Two calls agree in each of their forms if their callees, the objects of their callees and their
arguments do. -/
theorem call_both (bare : Bool) (p : Pos) (key : Nat) {callee : Expr} (types : List String)
    (hcallee : Both (LikeExpr A) (expr env false callee) (expr env' false (callee.reword r)))
    (hobject : ∀ q object property, callee = .member q object property →
      isIdentifier property = true ∧
        ∀ bare, Both (LikeExpr A) (expr env bare object) (expr env' bare (object.reword r)))
    (harg : ∀ absent place, LikeExpr A absent absent → Both (LikeExpr A)
      (argAt env absent place args) (argAt env' absent place (rewordArgs r args))) :
    Both (LikeExpr A) (expr env bare (.call p key callee args types))
      (expr env' bare ((Expr.call p key callee args types).reword r)) := by
  have hundefined := likeExpr_undefined h
  have hnone : LikeExprs A [] [] := ⟨spelled_nil, rfl⟩
  have hname {n : String} (hn : isIdentifier n = true) :
      LikeExpr A (.name (safeName n)) (.name (safeName n)) :=
    ⟨spelled_cons.2 ⟨isIdentifier_safeName hn, spelled_nil⟩, rfl⟩
  rw [Expr.reword, expr, expr]
  refine both_get.bind fun s t hst => ?_
  have hform : (callForm env s.scopes callee key).Spelled A := callForm_spelled h callee key
  simp only [hst.scopes, callForm_reword h]
  generalize callForm env s.scopes callee key = form at hform ⊢
  cases form with
  | function f => exact arranged_both h hpos hnamed (hname hform) hnone (f.params.map Param.name)
  | receiver f =>
    have hcall (first first' : Script.Expr) (hfirst : LikeExpr A first first') :=
      have hfront : LikeExprs A [first] [first'] :=
        ⟨spelled_append.2 ⟨hfirst.spelled, spelled_nil⟩, congrArg (fun e => [e]) hfirst.hollow⟩
      arranged_both h hpos hnamed (hname hform) hfront (f.params.map Param.name)
    cases callee with
    | member q object property => exact ((hobject q object property rfl).2 true).bind hcall
    | _ => exact (both_pure hundefined).bind hcall
  | method f =>
    have hcall (target target' : Script.Expr) (ht : LikeExpr A target target') :=
      arranged_both h hpos hnamed ht hnone ((f.params.drop 1).map Param.name)
    cases callee with
    | member q object property =>
      obtain ⟨hproperty, hobject⟩ := hobject q object property rfl
      refine (hobject false).bind fun _ _ ho => (both_pure ⟨?_, ?_⟩).bind hcall
      · have hmember := isIdentifier_safeMember hproperty
        exact spelled_append.2 ⟨ho.spelled, spelled_cons.2 ⟨hmember, spelled_nil⟩⟩
      · exact congrArg (Script.Expr.member · (safeMember property)) ho.hollow
    | _ => exact (both_pure hundefined).bind hcall
  | construct record =>
    have hnew : isIdentifier "new" = true := by decide
    have ht : LikeExpr A (.member (.name (safeName record.name)) "new")
        (.member (.name (safeName record.name)) "new") :=
      ⟨spelled_append.2 ⟨(hname hform).spelled, spelled_cons.2 ⟨hnew, spelled_nil⟩⟩, rfl⟩
    exact arranged_both h hpos hnamed ht hnone record.fields
  | silent => exact both_pure hundefined
  | input id =>
    simp only [CallForm.reword, Args.index?_reword]
    exact (harg _ _ hundefined).bind fun _ _ h₁ =>
      both_pure ⟨h₁.spelled, congrArg (Expr.input id) h₁.hollow⟩
  | plot id =>
    simp only [CallForm.reword, Args.index?_reword]
    exact (harg _ _ (likeExpr_nan h)).bind fun _ _ h₁ =>
      both_pure ⟨h₁.spelled, congrArg (Expr.plot id) h₁.hollow⟩
  | builtin b =>
    simp only [CallForm.reword, countP_name_rewordArgs, Expr.path_reword]
    refine (warnArity_both _ _ _ _ _).bind fun _ _ _ => hpos.bind fun _ _ h₁ =>
      (hnamed _).bind fun _ _ h₂ => both_pure ⟨?_, ?_⟩
    · exact spelled_builtinCall hform _ h₁.spelled h₂.spelled
    · rw [hollow_builtinCall, hollow_builtinCall, h₁.hollow, h₂.hollow]
  | plain =>
    simp only [CallForm.reword, Expr.path_reword]
    refine (warnUnknown_both _ _ _).bind fun _ _ _ => hcallee.bind fun _ _ hc =>
      hpos.bind fun _ _ h₁ => (hnamed _).bind fun _ _ h₂ => both_pure ⟨?_, ?_⟩
    · rw [Expr.leaves, exprLeaves_append]
      exact spelled_append.2 ⟨hc.spelled, spelled_append.2 ⟨h₁.spelled, spelled_options h₂.spelled⟩⟩
    · simp only [Expr.hollow, hollowExprs_append, hollowExprs_options, hc.hollow, h₁.hollow,
        h₂.hollow]

end Calls

/-! ### Assignments, counting loops and returns -/

theorem plain_scriptText {op : BinaryOp} (h : op ∈ BinaryOp.known) :
    Plain op.scriptText ∧ Plain op.spelling := by
  have hall : ∀ op ∈ BinaryOp.known, Plain op.scriptText ∧ Plain op.spelling := by decide
  exact hall op h

theorem plain_assignText {op : AssignOp} (h : op ∈ AssignOp.known) :
    Plain op.scriptText ∧ Plain op.spelling := by
  have hall : ∀ op ∈ AssignOp.known, Plain op.scriptText ∧ Plain op.spelling := by decide
  exact hall op h

section Statements

variable (tail : Bool) (p : Pos)

theorem assign_both (h : env.Twin A r env') {op : AssignOp} (hop : op ∈ AssignOp.known)
    {target value : Expr}
    (hname : ∀ q n, target = .name q n → isIdentifier n = true)
    (ht : Both (LikeExpr A) (expr env false target) (expr env' false (target.reword r)))
    (hv : Both (LikeExpr A) (expr env false value) (expr env' false (value.reword r))) :
    Both (LikeStmts A) (stmt env tail (.assign p target op value))
      (stmt env' tail ((Stmt.assign p target op value).reword r)) := by
  have hop : A op.scriptText := h.plain _ (plain_assignText hop).1
  rw [Stmt.reword, stmt, stmt]
  refine hv.bind fun _ _ hv => ?_
  cases target with
  | name q n =>
    have hn := isIdentifier_safeName (hname q n rfl)
    refine (both_afterAssign (A := A) n).bind fun _ _ h₁ => both_pure ⟨?_, ?_⟩
    · cases tail <;> simp [stmtLeaves, Stmt.leaves, Expr.leaves, Leaf.Spelled, hop, hn, hv.spelled,
        h₁.spelled]
    · cases tail <;> simp [hollowStmts, Stmt.hollow, hv.hollow, h₁.hollow]
  | member q object property =>
    refine ht.bind fun _ _ ht => both_pure ⟨?_, ?_⟩
    · simp [stmtLeaves, Stmt.leaves, Leaf.Spelled, hop, ht.spelled, hv.spelled]
    · simp only [hollowStmts, Stmt.hollow, ht.hollow, hv.hollow]
  | _ => exact both_fail _ _ _ _

/-- Two counting loops agree if their bounds, their steps and their bodies do. -/
theorem forCount_both (h : env.Twin A r env') {counter : String}
    (hcounter : isIdentifier counter = true) {init update : Stmt} {test : Expr} {stmts : List Stmt}
    (eitherWay : Bool)
    (hi : ∀ q k n ns m t first, init = .decl q k n ns m t first →
      Both (LikeExpr A) (expr env false first) (expr env' false (first.reword r)))
    (ht : ∀ q op left last, test = .binary q op left last → op ∈ BinaryOp.known ∧
      Both (LikeExpr A) (expr env false last) (expr env' false (last.reword r)))
    (hu : ∀ q target op step, update = .assign q target op step → op ∈ AssignOp.known ∧
      Both (LikeExpr A) (expr env false step) (expr env' false (step.reword r)))
    (hb : Both (LikeStmts A) (body env false stmts) (body env' false (rewordStmts r stmts))) :
    Both (LikeStmts A) (stmt env tail (.forCount p counter init test update stmts eitherWay))
      (stmt env' tail ((Stmt.forCount p counter init test update stmts eitherWay).reword r)) := by
  cases init with
  | decl q k n ns m t first =>
    cases update with
    | assign q' target op step =>
      rw [Stmt.reword, Stmt.reword, Stmt.reword, stmt, stmt]
      refine (hi _ _ _ _ _ _ _ rfl).bind fun _ _ hfirst => ?_
      cases test with
      | binary q'' op' left last =>
        obtain ⟨htest, hlast⟩ := ht _ _ _ _ rfl
        obtain ⟨hupdate, hstep⟩ := hu _ _ _ _ rfl
        refine hlast.bind fun _ _ hlast => hstep.bind fun _ _ hstep =>
          both_freshLoop.bind fun loop _ he => ?_
        subst he
        refine Both.bind (R := LikeStmts A) (Both.inScope ?_) fun _ _ hstmts => both_pure ⟨?_, ?_⟩
        · refine (both_define hcounter .loop).bind fun _ _ _ => (both_afterDeclare h hcounter).bind
            fun _ _ h₁ => hb.bind fun _ _ h₂ => both_pure ⟨?_, ?_⟩
          · simp [stmtLeaves, Stmt.leaves, Leaf.Spelled, isIdentifier_loopName, h₁.spelled,
              h₂.spelled]
          · simp [hollowStmts, Stmt.hollow, h.loopLimit, h₁.hollow, h₂.hollow]
        · have htest : A op'.spelling := h.plain _ (plain_scriptText htest).2
          have hupdate : A op.spelling := h.plain _ (plain_assignText hupdate).2
          cases eitherWay <;> simp [stmtLeaves, Stmt.leaves, Leaf.Spelled, isIdentifier_loopName,
            isIdentifier_directionName, isIdentifier_safeName hcounter, htest, hupdate,
            hfirst.spelled, hlast.spelled, hstep.spelled, hstmts.spelled]
        · cases eitherWay <;> simp [hollowStmts, Stmt.hollow, hfirst.hollow, hlast.hollow,
            hstep.hollow, hstmts.hollow]
      | _ => exact both_fail _ _ _ _
    | _ => exact both_fail _ _ _ _
  | _ => exact both_fail _ _ _ _

theorem ret_both {value : Expr}
    (hv : Both (LikeExpr A) (expr env true value) (expr env' true (value.reword r))) :
    Both (LikeStmts A) (stmt env tail (.ret p value))
      (stmt env' tail ((Stmt.ret p value).reword r)) := by
  have hret (e e' : Script.Expr) (he : LikeExpr A e e') :
      Both (LikeStmts A) (pure [.ret e]) (pure [.ret e']) :=
    both_pure ⟨spelled_append.2 ⟨he.spelled, spelled_nil⟩,
      congrArg (fun e => [Script.Stmt.ret e]) he.hollow⟩
  cases value with
  | missing => exact both_pure ⟨spelled_nil, rfl⟩
  | _ => exact hv.bind hret

end Statements

/-! ### Trees -/

mutual

/-- Lowering an expression and the same expression with other strings. -/
theorem expr_both (h : env.Twin A r env') : (e : Expr) → e.Named IsBindable → ∀ bare,
    Both (LikeExpr A) (expr env bare e) (expr env' bare (e.reword r))
  | .missing, _, _ => both_fail _ _ _ _
  | .number _ text, _, _ =>
    both_pure ⟨spelled_cons.2 ⟨h.plain _ (plain_numberText text), spelled_nil⟩, rfl⟩
  | .string .., _, _ | .color .., _, _ => both_pure ⟨spelled_nil, rfl⟩
  | .bool _ value, _, _ => by
    refine both_pure ⟨spelled_cons.2 ⟨h.plain _ ?_, spelled_nil⟩, rfl⟩
    cases value <;> decide
  | .na _, _, _ => both_pure (likeExpr_nan h)
  | .name _ n, hn, _ => by
    refine both_get.bind fun s t hst => both_pure ⟨?_, ?_⟩
    · exact spelled_nameExpr h (isIdentifier_of_isNameShaped (each_cons.1 hn).1)
    · rw [hst.scopes, nameExpr_twin h]
  | .member p object property, hn, _ => by
    obtain ⟨hproperty, ho⟩ := each_listed.1 hn
    have hobject := expr_both h object ho false
    refine both_get.bind fun s t hst => ?_
    have hm : memberExpr? env' t.scopes (.member (r.move p) (object.reword r) property) =
        memberExpr? env s.scopes (.member p object property) := by
      rw [hst.scopes]
      exact memberExpr?_reword h (.member p object property)
    rw [hm]
    cases he : memberExpr? env s.scopes (.member p object property) with
    | some e => exact both_pure ⟨spelled_memberExpr? h he, rfl⟩
    | none =>
      refine hobject.bind fun _ _ ho => both_pure ⟨?_, ?_⟩
      · have hmember := isIdentifier_safeMember (isIdentifier_of_isNameShaped hproperty)
        exact spelled_append.2 ⟨ho.spelled, spelled_cons.2 ⟨hmember, spelled_nil⟩⟩
      · exact congrArg (Script.Expr.member · (safeMember property)) ho.hollow
  | .index p object offset, hn, _ => by
    obtain ⟨-, hn⟩ := each_listed.1 hn
    obtain ⟨ho, hf⟩ := each_append.1 hn
    have hobject := expr_both h object ho true
    rw [Expr.reword, expr, expr]
    refine (expr_both h offset hf true).bind fun o o' hoffset => ?_
    have hseries (value value' : Script.Expr) (hv : LikeExpr A value value') :
        Both (LikeExpr A) (pure (.call (.series (siteKey "series" p) value) [o]))
          (pure (.call (.series (siteKey "series" (r.move p)) value') [o'])) :=
      both_pure ⟨spelled_append.2 ⟨hv.spelled, spelled_append.2 ⟨hoffset.spelled, spelled_nil⟩⟩,
        by simp only [Expr.hollow, hollowExprs, hv.hollow, hoffset.hollow]⟩
    cases object with
    | name q n =>
      have hname := isIdentifier_safeName (isIdentifier_of_isNameShaped (each_cons.1 ho).1)
      exact both_pure ⟨spelled_cons.2 ⟨isIdentifier_historyName hname, hoffset.spelled⟩,
        congrArg (Expr.history (safeName n)) hoffset.hollow⟩
    | _ => exact hobject.bind hseries
  | .call p key callee args types, hn, bare => by
    obtain ⟨hargs, hn⟩ := each_cons.1 hn
    obtain ⟨hc, ha⟩ := each_append.1 hn
    -- a method call lowers the object of its callee instead of the callee
    have hobject (q : Pos) (object : Expr) (property : String)
        (he : callee = .member q object property) : isIdentifier property = true ∧
        ∀ bare, Both (LikeExpr A) (expr env bare object) (expr env' bare (object.reword r)) := by
      cases callee with
      | member _ part _ =>
        obtain ⟨-, rfl, rfl⟩ := Expr.member.inj he
        exact ⟨isIdentifier_of_isNameShaped (each_listed.1 hc).1,
          expr_both h part (each_listed.1 hc).2⟩
      | _ => cases he
    exact call_both h (positionalArgs_both h args ha)
      (fun keep => namedArgs_both h keep args hargs ha) bare p key types
      (expr_both h callee hc false) hobject
      fun absent place habsent => argAt_both h habsent place args ha
  | .binary _ op left right, hn, bare => by
    obtain ⟨hop, hn⟩ := each_listed.1 hn
    obtain ⟨hl, hr⟩ := each_append.1 hn
    refine (expr_both h left hl false).bind fun _ _ hl => (expr_both h right hr false).bind
      fun _ _ hr => both_pure ⟨?_, ?_⟩
    · have hop : A op.scriptText := h.plain _ (plain_scriptText hop).1
      simp [leaves_wrap, Expr.leaves, Leaf.Spelled, hop, hl.spelled, hr.spelled]
    · simp only [hollow_wrap, Expr.hollow, hl.hollow, hr.hollow]
  | .unary p op operand, hn, bare => by
    refine (expr_both h operand (each_listed.1 hn).2 false).bind fun v v' hv => ?_
    have hunary (hop : A op.scriptText) : Both (LikeExpr A) (pure (wrap bare (.unary op v)))
        (pure (wrap bare (.unary op v'))) :=
      both_pure ⟨by simp [leaves_wrap, Expr.leaves, Leaf.Spelled, hop, hv.spelled],
        by simp only [hollow_wrap, Expr.hollow, hv.hollow]⟩
    cases op with
    | other spelling => exact both_fail _ _ _ _
    | not | neg | plus => exact hunary (h.plain _ (by decide))
  | .ternary _ cond yes no, hn, bare => by
    obtain ⟨-, hn⟩ := each_listed.1 hn
    obtain ⟨hn, hno⟩ := each_append.1 hn
    obtain ⟨hc, hy⟩ := each_append.1 hn
    refine (expr_both h cond hc false).bind fun _ _ hc => (expr_both h yes hy false).bind
      fun _ _ hy => (expr_both h no hno false).bind fun _ _ hno => both_pure ⟨?_, ?_⟩
    · simp [leaves_wrap, Expr.leaves, hc.spelled, hy.spelled, hno.spelled]
    · simp only [hollow_wrap, Expr.hollow, hc.hollow, hy.hollow, hno.hollow]
  | .array _ elements, hn, _ =>
    (exprs_both h elements (each_listed.1 hn).2).bind fun _ _ he =>
      both_pure ⟨he.spelled, congrArg Script.Expr.array he.hollow⟩
  | .switch _ subject arms, hn, _ => by
    obtain ⟨-, hn⟩ := each_listed.1 hn
    obtain ⟨hs, ha⟩ := each_append.1 hn
    rw [Expr.reword, expr, expr, hasLoopJump_reword, hasDefault_reword]
    refine Both.inScope <| (switchStmts_both (hasLoopJump arms) (subject.isMissing_reword r)
      (expr_both h subject hs true) (expr_both h subject hs false)
      (nativeArms_both h true arms ha) (fun n => chainArms_both h true n arms ha)
      (defaultArm_both h true arms ha)).bind fun _ _ hb => both_pure ⟨?_, ?_⟩
    · exact spelled_valueBlock (h.plain _ (by decide)) _ hb.spelled
    · rw [hollow_valueBlock, hollow_valueBlock, hb.hollow]
  | .ifElse _ cond yes no, hn, _ => by
    obtain ⟨-, hn⟩ := each_listed.1 hn
    obtain ⟨hn, hno⟩ := each_append.1 hn
    obtain ⟨hc, hy⟩ := each_append.1 hn
    rw [Expr.reword, expr, expr, endsInElse_reword]
    refine Both.inScope <| (expr_both h cond hc true).bind fun _ _ hc =>
      (body_both h true yes hy).inScope.bind fun _ _ hy =>
        (elseBranch_both h true no hno).bind fun _ _ hno => both_pure ⟨?_, ?_⟩
    · refine spelled_valueBlock (h.plain _ (by decide)) _ ?_
      simp [stmtLeaves, Stmt.leaves, hc.spelled, hy.spelled, hno.spelled]
    · simp only [hollow_valueBlock, hollowStmts, Stmt.hollow, hc.hollow, hy.hollow, hno.hollow]

theorem exprs_both (h : env.Twin A r env') : (es : List Expr) → NamedExprs IsBindable es →
    Both (LikeExprs A) (exprs env es) (exprs env' (rewordExprs r es))
  | [], _ => both_pure ⟨spelled_nil, rfl⟩
  | e :: es, hn => by
    obtain ⟨he, hes⟩ := each_append.1 hn
    refine (expr_both h e he true).bind fun _ _ h₁ => (exprs_both h es hes).bind fun _ _ h₂ =>
      both_pure ⟨spelled_append.2 ⟨h₁.spelled, h₂.spelled⟩, ?_⟩
    simp only [hollowExprs, h₁.hollow, h₂.hollow]

theorem positionalArgs_both (h : env.Twin A r env') : (args : List Arg) →
    NamedArgs IsBindable args →
    Both (LikeExprs A) (positionalArgs env args) (positionalArgs env' (rewordArgs r args))
  | [], _ => both_pure ⟨spelled_nil, rfl⟩
  | .mk name value :: args, hn => by
    obtain ⟨hv, ha⟩ := each_append.1 hn
    have hvalue := expr_both h value hv true
    have hargs := positionalArgs_both h args ha
    rw [rewordArgs, positionalArgs, positionalArgs]
    split
    · refine hvalue.bind fun _ _ h₁ => hargs.bind fun _ _ h₂ =>
        both_pure ⟨spelled_append.2 ⟨h₁.spelled, h₂.spelled⟩, ?_⟩
      simp only [hollowExprs, h₁.hollow, h₂.hollow]
    · exact hargs

theorem namedArgs_both (h : env.Twin A r env') (keep : String → Bool) : (args : List Arg) →
    (∀ a ∈ args, a.name = "" ∨ isNameShaped a.name = true) → NamedArgs IsBindable args →
    Both (LikeNamed A) (namedArgs env keep args) (namedArgs env' keep (rewordArgs r args))
  | [], _, _ => both_pure ⟨spelled_nil, rfl⟩
  | .mk name value :: args, hnames, hn => by
    obtain ⟨hname, hnames⟩ := forall_mem_cons.1 hnames
    obtain ⟨hv, ha⟩ := each_append.1 hn
    have hvalue := expr_both h value hv true
    have hargs := namedArgs_both h keep args hnames ha
    rw [rewordArgs, namedArgs, namedArgs]
    split
    · next hkeep =>
      rw [Bool.and_eq_true, decide_eq_true_eq] at hkeep
      have hmember := isIdentifier_safeMember
        (isIdentifier_of_isNameShaped (hname.resolve_left hkeep.1))
      refine hvalue.bind fun _ _ h₁ => hargs.bind fun _ _ h₂ => both_pure ⟨?_, ?_⟩
      · exact spelled_append.2 ⟨spelled_cons.2 ⟨hmember, h₁.spelled⟩, h₂.spelled⟩
      · exact cons_eq_cons.2 ⟨congrArg (Prod.mk name) h₁.hollow, h₂.hollow⟩
    · exact hargs

theorem argAt_both (h : env.Twin A r env') {absent : Script.Expr}
    (habsent : LikeExpr A absent absent) : (place : Option Nat) → (args : List Arg) →
    NamedArgs IsBindable args →
    Both (LikeExpr A) (argAt env absent place args) (argAt env' absent place (rewordArgs r args))
  | none, args, _ => by
    rw [argAt, argAt]
    exact both_pure habsent
  | some _, [], _ => by
    rw [rewordArgs, argAt, argAt]
    · exact both_pure habsent
    · simp
    · simp
  | some 0, .mk _ value :: args, hn => by
    have hvalue := expr_both h value (each_append.1 hn).1 true
    cases value with
    | missing => exact both_pure habsent
    | _ => exact hvalue
  | some (i + 1), .mk _ _ :: args, hn => by
    rw [rewordArgs, argAt, argAt]
    exact argAt_both h habsent (some i) args (each_append.1 hn).2

/-- Lowering a statement and the same statement with other strings. -/
theorem stmt_both (h : env.Twin A r env') : (s : Stmt) → s.Named IsBindable → ∀ tail,
    Both (LikeStmts A) (stmt env tail s) (stmt env' tail (s.reword r))
  | .missing, _, _ => both_fail _ _ _ _
  | .decl p key name names qualifier _ value, hn, tail => by
    obtain ⟨hnamed, hv⟩ := each_listed.1 hn
    have hnames : ∀ n ∈ Stmt.declared name names, isIdentifier n = true :=
      fun n hm => isIdentifier_of_isNameShaped (hnamed n hm)
    refine (expr_both h value hv false).bind fun _ _ hv =>
      (declStmts_both h p (r.move p) key hnames qualifier hv).bind fun _ _ hs =>
        both_pure ⟨?_, ?_⟩
    · cases tail <;> simp [stmtLeaves, Stmt.leaves, spelled_declaredValue hnames, hs.spelled]
    · cases tail <;> simp [hollowStmts, Stmt.hollow, hollow_declaredValue, hs.hollow]
  | .assign p target op value, hn, tail => by
    obtain ⟨hop, hn⟩ := each_listed.1 hn
    obtain ⟨ht, hv⟩ := each_append.1 hn
    refine assign_both tail p h hop ?_ (expr_both h target ht false) (expr_both h value hv false)
    rintro q n rfl
    exact isIdentifier_of_isNameShaped (each_cons.1 ht).1
  | .func _ name params stmts isMethod, hn, _ => by
    obtain ⟨⟨hnamed, hparams⟩, hb⟩ := each_listed.1 hn
    have hname := isIdentifier_of_isNameShaped hnamed
    have hnames : ∀ n ∈ params.map Param.name, isIdentifier n = true :=
      forall_mem_map.2 fun p hp => isIdentifier_of_isNameShaped (hparams p hp)
    refine Both.bind (R := LikeStmts A) (Both.inScope ?_) fun _ _ hs => both_pure ⟨?_, ?_⟩
    · refine (both_defineAll .param hnames).bind fun _ _ _ =>
        (both_afterDeclareAll h hnames).bind fun _ _ h₁ => (body_both h true stmts hb).bind
          fun _ _ h₂ => both_pure ⟨?_, ?_⟩
      · simp [h₁.spelled, h₂.spelled]
      · simp [h₁.hollow, h₂.hollow]
    · have hbinders := spelled_binders (A := A) (isIdentifier_map_safeName hnames)
      rw [stmtLeaves, Stmt.leaves]
      simp only [spelled_append, spelled_cons]
      exact ⟨⟨isIdentifier_safeName hname, hbinders, hs.spelled⟩, spelled_shims h hname _ _⟩
    · simp only [hollowStmts, Stmt.hollow, hollowStmts_shims, shims_twin h, hs.hollow]
  | .ifElse _ cond yes no, hn, tail => by
    obtain ⟨-, hn⟩ := each_listed.1 hn
    obtain ⟨hn, hno⟩ := each_append.1 hn
    obtain ⟨hc, hy⟩ := each_append.1 hn
    refine (expr_both h cond hc true).bind fun _ _ hc =>
      (body_both h tail yes hy).inScope.bind fun _ _ hy =>
        (elseBranch_both h tail no hno).bind fun _ _ hno => both_pure ⟨?_, ?_⟩
    · simp [stmtLeaves, Stmt.leaves, hc.spelled, hy.spelled, hno.spelled]
    · simp only [hollowStmts, Stmt.hollow, hc.hollow, hy.hollow, hno.hollow]
  | .whileLoop _ cond stmts, hn, _ => by
    obtain ⟨-, hn⟩ := each_listed.1 hn
    obtain ⟨hc, hb⟩ := each_append.1 hn
    refine (expr_both h cond hc true).bind fun _ _ hc => both_freshLoop.bind fun loop _ he =>
      (body_both h false stmts hb).inScope.bind fun _ _ hb => ?_
    subst he
    refine both_pure ⟨?_, ?_⟩
    · simp [stmtLeaves, Stmt.leaves, Leaf.Spelled, isIdentifier_loopName, hc.spelled, hb.spelled]
    · simp only [hollowStmts, Stmt.hollow, h.loopLimit, hc.hollow, hb.hollow]
  | .forCount p counter init test update stmts eitherWay, hn, tail => by
    obtain ⟨hcounter, hn⟩ := each_listed.1 hn
    obtain ⟨hn, hb⟩ := each_append.1 hn
    obtain ⟨hn, hu⟩ := each_append.1 hn
    obtain ⟨hi, ht⟩ := each_append.1 hn
    -- the parts of the loop are themselves parts of the three statements that it holds
    refine forCount_both tail p h (isIdentifier_of_isNameShaped hcounter) eitherWay ?_ ?_ ?_
      (body_both h false stmts hb)
    · intro _ _ _ _ _ _ _ he
      cases init with
      | decl _ _ _ _ _ _ first =>
        obtain ⟨-, -, -, -, -, -, rfl⟩ := Stmt.decl.inj he
        exact expr_both h first (each_listed.1 hi).2 false
      | _ => cases he
    · intro _ _ _ _ he
      cases test with
      | binary _ _ _ last =>
        obtain ⟨-, rfl, -, rfl⟩ := Expr.binary.inj he
        exact ⟨(each_listed.1 ht).1,
          expr_both h last (each_append.1 (each_listed.1 ht).2).2 false⟩
      | _ => cases he
    · intro _ _ _ _ he
      cases update with
      | assign _ _ _ step =>
        obtain ⟨-, -, rfl, rfl⟩ := Stmt.assign.inj he
        exact ⟨(each_listed.1 hu).1,
          expr_both h step (each_append.1 (each_listed.1 hu).2).2 false⟩
      | _ => cases he
  | .forIn _ index item collection stmts, hn, _ => by
    obtain ⟨⟨hindex, hitem⟩, hn⟩ := each_listed.1 hn
    obtain ⟨hc, hb⟩ := each_append.1 hn
    replace hindex := hindex.imp_right isIdentifier_of_isNameShaped
    replace hitem := isIdentifier_of_isNameShaped hitem
    have hnames : ∀ n ∈ if index = "" then [item] else [index, item], isIdentifier n = true := by
      split
      · simpa using hitem
      · next hne => simpa using ⟨hindex.resolve_left hne, hitem⟩
    refine (expr_both h collection hc false).bind fun _ _ hc => both_freshLoop.bind
      fun loop _ he => ?_
    subst he
    refine Both.bind (R := LikeStmts A) (Both.inScope ?_) fun _ _ hs => both_pure ⟨?_, ?_⟩
    · refine (both_defineAll .loop hnames).bind fun _ _ _ =>
        (both_afterDeclareAll h hnames).bind fun _ _ h₁ => (body_both h false stmts hb).bind
          fun _ _ h₂ => both_pure ⟨?_, ?_⟩
      · simp [stmtLeaves, Stmt.leaves, Leaf.Spelled, isIdentifier_loopName, h₁.spelled,
          h₂.spelled]
      · simp [hollowStmts, Stmt.hollow, h.loopLimit, h₁.hollow, h₂.hollow]
    · have hitem := isIdentifier_safeName hitem
      split
      · simp [stmtLeaves, Stmt.leaves, Leaf.Spelled, isIdentifier_loopName, hitem, hc.spelled,
          hs.spelled]
      · next hne =>
        have hindex := isIdentifier_safeName (hindex.resolve_left hne)
        simp [stmtLeaves, Stmt.leaves, Leaf.Spelled, isIdentifier_loopName, hindex, hitem,
          hc.spelled, hs.spelled]
    · split <;> simp only [hollowStmts, Stmt.hollow, hc.hollow, hs.hollow]
  | .ret p value, hn, tail => ret_both tail p (expr_both h value (each_listed.1 hn).2 true)
  | .brk _, _, _ | .cont _, _, _ => both_pure ⟨spelled_nil, rfl⟩
  | .switch _ subject arms, hn, tail => by
    obtain ⟨-, hn⟩ := each_listed.1 hn
    obtain ⟨hs, ha⟩ := each_append.1 hn
    rw [Stmt.reword, stmt, stmt, hasLoopJump_reword]
    exact switchStmts_both (hasLoopJump arms) (subject.isMissing_reword r)
      (expr_both h subject hs true) (expr_both h subject hs false)
      (nativeArms_both h tail arms ha) (fun n => chainArms_both h tail n arms ha)
      (defaultArm_both h tail arms ha)
  | .typeDecl _ name fields, hn, _ => by
    obtain ⟨⟨hnamed, hfields⟩, hf⟩ := each_listed.1 hn
    have hname := isIdentifier_of_isNameShaped hnamed
    refine (slots_both h fields hfields hf).bind fun _ _ hs => both_pure ⟨?_, ?_⟩
    · have hargs : isIdentifier "args" = true := by decide
      simp [stmtLeaves, Stmt.leaves, Leaf.Spelled, hargs, isIdentifier_safeName hname, hs.spelled]
    · simp only [hollowStmts, Stmt.hollow, hs.hollow]
  | .importLib _ path localName, hn, _ => by
    have hname : isIdentifier localName = true := (each_cons.1 hn).1
    refine (both_define hname .library).bind fun _ _ _ => (both_warn _ _ _ _ _ _ _ _).bind
      fun _ _ _ => both_pure ⟨?_, rfl⟩
    exact spelled_cons.2 ⟨isIdentifier_safeName hname, spelled_nil⟩
  | .exported _ decl, hn, _ => stmt_both h decl (each_listed.1 hn).2 false
  | .expr _ value, hn, tail => by
    have hvalue := expr_both h value (each_listed.1 hn).2 true
    rw [Stmt.reword, stmt, stmt, isSilent_reword h]
    split
    · exact both_pure ⟨spelled_nil, rfl⟩
    · refine hvalue.bind fun _ _ hv => both_pure ⟨?_, ?_⟩
      · cases tail <;> simp [stmtLeaves, Stmt.leaves, hv.spelled]
      · cases tail <;> simp [hollowStmts, Stmt.hollow, hv.hollow]

theorem body_both (h : env.Twin A r env') (tail : Bool) : (ss : List Stmt) →
    NamedStmts IsBindable ss →
    Both (LikeStmts A) (body env tail ss) (body env' tail (rewordStmts r ss))
  | [], _ => both_pure ⟨spelled_nil, rfl⟩
  | s :: ss, hn => by
    obtain ⟨hs, hss⟩ := each_append.1 hn
    rw [rewordStmts, body, body, isEmpty_rewordStmts]
    refine (stmt_both h s hs _).bind fun _ _ h₁ => (body_both h tail ss hss).bind fun _ _ h₂ =>
      both_pure ⟨?_, ?_⟩
    · simp [h₁.spelled, h₂.spelled]
    · simp [h₁.hollow, h₂.hollow]

theorem elseBranch_both (h : env.Twin A r env') (tail : Bool) : (ss : List Stmt) →
    NamedStmts IsBindable ss →
    Both (Like Otherwise.leaves Otherwise.hollow A) (elseBranch env tail ss)
      (elseBranch env' tail (rewordStmts r ss))
  | [], _ => both_pure ⟨spelled_nil, rfl⟩
  | s :: ss, hn => by
    obtain ⟨hs, hss⟩ := each_append.1 hn
    have hfirst := stmt_both h s hs (tail && ss.isEmpty)
    have hrest := body_both h tail ss hss
    have hblock : Both (Like Otherwise.leaves Otherwise.hollow A)
        (inScope do return .block ((← stmt env (tail && ss.isEmpty) s) ++ (← body env tail ss)))
        (inScope do return .block ((← stmt env' (tail && ss.isEmpty) (s.reword r)) ++
          (← body env' tail (rewordStmts r ss)))) := by
      refine Both.inScope <| hfirst.bind fun _ _ h₁ => hrest.bind fun _ _ h₂ => both_pure ⟨?_, ?_⟩
      · simp [Otherwise.leaves, h₁.spelled, h₂.spelled]
      · simp [Otherwise.hollow, h₁.hollow, h₂.hollow]
    -- an else-if chain goes on with the parts of the single statement of the branch
    have hchain (q : Pos) (cond : Expr) (yes no : List Stmt) (he : s = .ifElse q cond yes no) :
        Both (LikeExpr A) (expr env true cond) (expr env' true (cond.reword r)) ∧
        Both (LikeStmts A) (body env tail yes) (body env' tail (rewordStmts r yes)) ∧
        Both (Like Otherwise.leaves Otherwise.hollow A) (elseBranch env tail no)
          (elseBranch env' tail (rewordStmts r no)) := by
      cases s with
      | ifElse _ first second third =>
        obtain ⟨hn, hno⟩ := each_append.1 (each_listed.1 hs).2
        obtain ⟨hc, hy⟩ := each_append.1 hn
        obtain ⟨-, rfl, rfl, rfl⟩ := Stmt.ifElse.inj he
        exact ⟨expr_both h first hc true, body_both h tail second hy,
          elseBranch_both h tail third hno⟩
      | _ => cases he
    cases ss with
    | cons t ss => cases s <;> exact hblock
    | nil =>
      cases s with
      | ifElse q cond yes no =>
        obtain ⟨hcond, hyes, hno⟩ := hchain q cond yes no rfl
        refine hcond.bind fun _ _ hc => hyes.inScope.bind fun _ _ hy => hno.bind fun _ _ hno =>
          both_pure ⟨?_, ?_⟩
        · simp [Otherwise.leaves, hc.spelled, hy.spelled, hno.spelled]
        · simp only [Otherwise.hollow, hc.hollow, hy.hollow, hno.hollow]
      | _ => exact hblock

theorem nativeArms_both (h : env.Twin A r env') (tail : Bool) : (arms : List Arm) →
    NamedArms IsBindable arms →
    Both (LikeCases A) (nativeArms env tail arms) (nativeArms env' tail (rewordArms r arms))
  | [], _ => both_pure ⟨spelled_nil, rfl⟩
  | .mk test stmts :: arms, hn => by
    obtain ⟨hn, ha⟩ := each_append.1 hn
    obtain ⟨ht, hb⟩ := each_append.1 hn
    have htest := expr_both h test ht true
    have hbody := (body_both h tail stmts hb).inScope
    have harms := nativeArms_both h tail arms ha
    cases test with
    | missing =>
      refine hbody.bind fun _ _ hb => harms.bind fun _ _ ha => both_pure ⟨?_, ?_⟩
      · exact spelled_append.2 ⟨hb.spelled, ha.spelled⟩
      · simp only [hollowCases, hb.hollow, ha.hollow]
    | _ =>
      refine htest.bind fun _ _ ht => hbody.bind fun _ _ hb => harms.bind fun _ _ ha =>
        both_pure ⟨?_, ?_⟩
      · exact spelled_append.2 ⟨spelled_append.2 ⟨ht.spelled, hb.spelled⟩, ha.spelled⟩
      · simp only [hollowCases, ht.hollow, hb.hollow, ha.hollow]

theorem chainArms_both (h : env.Twin A r env') (tail : Bool) (subject : Option Nat) :
    (arms : List Arm) → NamedArms IsBindable arms →
    Both (LikeBranches A) (chainArms env tail subject arms)
      (chainArms env' tail subject (rewordArms r arms))
  | [], _ => both_pure ⟨spelled_nil, rfl⟩
  | .mk test stmts :: arms, hn => by
    obtain ⟨hn, ha⟩ := each_append.1 hn
    obtain ⟨ht, hb⟩ := each_append.1 hn
    have htest := expr_both h test ht
    have hbody := (body_both h tail stmts hb).inScope
    have harms := chainArms_both h tail subject arms ha
    have hbranch (cond cond' : Script.Expr) (hc : LikeExpr A cond cond') :
        Both (LikeBranches A)
          (do
            let stmts ← inScope (body env tail stmts)
            return (cond, stmts) :: (← chainArms env tail subject arms))
          (do
            let stmts ← inScope (body env' tail (rewordStmts r stmts))
            return (cond', stmts) :: (← chainArms env' tail subject (rewordArms r arms))) := by
      refine hbody.bind fun _ _ hb => harms.bind fun _ _ ha => both_pure ⟨?_, ?_⟩
      · exact spelled_append.2 ⟨spelled_append.2 ⟨hc.spelled, hb.spelled⟩, ha.spelled⟩
      · exact cons_eq_cons.2 ⟨Prod.ext hc.hollow hb.hollow, ha.hollow⟩
    have hcompare (n : Nat) (e e' : Script.Expr) (he : LikeExpr A e e') :
        Both (LikeExpr A) (pure (.binary .eq (.name (subjectName n)) e))
          (pure (.binary .eq (.name (subjectName n)) e')) := by
      have heq : A BinaryOp.eq.scriptText := h.plain _ (by decide)
      refine both_pure ⟨?_, ?_⟩
      · simp [Expr.leaves, Leaf.Spelled, heq, isIdentifier_subjectName, he.spelled]
      · simp only [Expr.hollow, he.hollow]
    cases test with
    | missing => exact harms
    | _ =>
      refine (htest true).bind fun e e' he => ?_
      cases subject with
      | none => exact (both_pure he).bind hbranch
      | some n => exact (htest false).bind fun e e' he => (hcompare n e e' he).bind hbranch

theorem defaultArm_both (h : env.Twin A r env') (tail : Bool) : (arms : List Arm) →
    NamedArms IsBindable arms → Option.Rel (Both (LikeStmts A)) (defaultArm env tail arms)
      (defaultArm env' tail (rewordArms r arms))
  | [], _ => .none
  | .mk test stmts :: arms, hn => by
    obtain ⟨hn, ha⟩ := each_append.1 hn
    have hbody := (body_both h tail stmts (each_append.1 hn).2).inScope
    have harms := defaultArm_both h tail arms ha
    rw [rewordArms, defaultArm, defaultArm, test.isMissing_reword]
    generalize defaultArm env tail arms = later at harms ⊢
    generalize defaultArm env' tail (rewordArms r arms) = later' at harms ⊢
    cases harms with
    | some hlater => exact .some hlater
    | none =>
      dsimp only
      split
      · exact .some hbody
      · exact .none

theorem slots_both (h : env.Twin A r env') : (fields : List Field) →
    (∀ f ∈ fields, isNameShaped f.name = true) → NamedFields IsBindable fields →
    Both (Like slotLeaves hollowSlots A) (slots env fields) (slots env' (rewordFields r fields))
  | [], _, _ => both_pure ⟨spelled_nil, rfl⟩
  | .mk name _ initial :: fields, hnames, hn => by
    obtain ⟨hname, hnames⟩ := forall_mem_cons.1 hnames
    replace hname : isIdentifier name = true := isIdentifier_of_isNameShaped hname
    obtain ⟨hi, hf⟩ := each_append.1 hn
    have hinitial := expr_both h initial hi false
    have hfields := slots_both h fields hnames hf
    have hslot (e e' : Script.Expr) (he : LikeExpr A e e') :
        Both (Like slotLeaves hollowSlots A)
          (do return .mk (safeName name) (safeMember name) e :: (← slots env fields))
          (do return .mk (safeName name) (safeMember name) e' ::
            (← slots env' (rewordFields r fields))) := by
      refine hfields.bind fun _ _ hf => both_pure ⟨?_, ?_⟩
      · simp [slotLeaves, Leaf.Spelled, isIdentifier_safeName hname,
          isIdentifier_safeMember hname, he.spelled, hf.spelled]
      · simp only [hollowSlots, he.hollow, hf.hollow]
    rw [rewordFields, slots, slots, initial.isMissing_reword]
    split
    · exact (both_pure (likeExpr_nan h)).bind hslot
    · exact hinitial.bind hslot

end

end Lowering

end Pine
