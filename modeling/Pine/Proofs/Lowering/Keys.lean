import Pine.Lowering.Program
import Pine.Proofs.Lowering.Ledger

/-!
# Keys of a script

The keys in the script of a program come from the ledger, each as often as it was handed out at
most. Not all keys of the ledger need be there: the value of an argument can be overwritten by that
of another, and the test of an arm is lowered twice.
-/

namespace Pine

open Lower List

namespace Lowering

open Script (exprMarks stmtMarks)

variable {ι : Type} {m : Script.Marks ι} {env : Context} {α : Type}

/-! ### Marks of what lowering makes -/

/-- The marks of named values. -/
def namedMarks (m : Script.Marks ι) (named : List (String × Script.Expr)) : List ι :=
  exprMarks m (named.map Prod.snd)

theorem propertyMarks_map (named : List (String × Script.Expr)) :
    Script.propertyMarks m (named.map fun p => .mk (Script.safeMember p.1) p.2) =
      namedMarks m named := by
  induction named with
  | nil => rfl
  | cons p named ih => simp [namedMarks, Script.propertyMarks, exprMarks, ih]

theorem marks_options (named : List (String × Script.Expr)) :
    exprMarks m (options named) = namedMarks m named := by
  unfold options
  split
  · next h =>
    rw [List.isEmpty_iff.1 h]
    rfl
  · rw [exprMarks, exprMarks, List.append_nil, Script.Expr.marks]
    exact propertyMarks_map named

/-- The marks of the branches of a chain of choices. -/
def branchMarks (m : Script.Marks ι) (branches : List (Script.Expr × List Script.Stmt)) : List ι :=
  branches.flatMap fun b => b.1.marks m ++ stmtMarks m b.2

/-- The marks of the branch for all other cases. -/
def lastMarks (m : Script.Marks ι) (last : Option (List Script.Stmt)) : List ι :=
  last.elim [] (stmtMarks m)

theorem marks_otherwise (last : Option (List Script.Stmt))
    (branches : List (Script.Expr × List Script.Stmt)) :
    (otherwise last branches).marks m = branchMarks m branches ++ lastMarks m last := by
  induction branches with
  | nil => cases last <;> rfl
  | cons b branches ih => simp [otherwise, Script.Otherwise.marks, branchMarks, ih]

theorem marks_chain (branches : List (Script.Expr × List Script.Stmt))
    (last : Option (List Script.Stmt)) :
    stmtMarks m (chain branches last) = branchMarks m branches ++ lastMarks m last := by
  cases branches with
  | nil => cases last <;> simp [chain, stmtMarks, Script.Stmt.marks, branchMarks, lastMarks]
  | cons b branches =>
    simp [chain, stmtMarks, Script.Stmt.marks, marks_otherwise, branchMarks]

theorem marks_valueBlock (total : Bool) (body : List Script.Stmt) :
    (valueBlock total body).marks m = stmtMarks m body := by
  rw [valueBlock, Script.Expr.marks, Script.stmtMarks_append]
  cases total <;> simp [stmtMarks, Script.Stmt.marks, Script.Expr.marks, Script.Expr.nan]

theorem marks_nameExpr (scopes : Scopes) (n : String) : (nameExpr env scopes n).marks m = [] := by
  unfold nameExpr
  repeat' split
  all_goals rfl

theorem marks_memberExpr? {scopes : Scopes} {e : Expr} {script : Script.Expr}
    (h : memberExpr? env scopes e = some script) : script.marks m = [] := by
  unfold memberExpr? constantExpr? at h
  dsimp only at h
  split at h
  · cases h
  · split at h
    · cases h
      rfl
    · cases h
      rfl
    · split at h
      · cases h
        rfl
      · cases h

theorem marks_wrap (bare : Bool) (e : Script.Expr) : (wrap bare e).marks m = e.marks m := by
  cases bare <;> simp [wrap, Script.Expr.marks]

theorem marks_declaredValue (name : String) (names : List String) :
    (declaredValue name names).marks m = [] := by
  have hnames : exprMarks m (names.map fun n => Script.Expr.name (Script.safeName n)) = [] := by
    induction names with
    | nil => rfl
    | cons n names ih => simpa [exprMarks, Script.Expr.marks] using ih
  unfold declaredValue
  split
  · rfl
  · exact hnames

theorem marks_shims (name : String) (params : List Param) (isMethod : Bool) :
    stmtMarks m (shims env name params isMethod) = [] := by
  unfold shims
  repeat' split
  all_goals rfl

/-! ### Calls -/

section

variable (m) [DecidableEq ι]

theorem count_marks_set (k : ι) (value : Script.Expr) (es : List Script.Expr) (i : Nat) :
    (exprMarks m (es.set i value)).count k ≤ (exprMarks m es).count k + (value.marks m).count k := by
  induction es generalizing i with
  | nil => simp [exprMarks]
  | cons e es ih =>
    cases i with
    | zero =>
      simp only [set_cons_zero, exprMarks, count_append]
      omega
    | succ i =>
      have hrest := ih i
      simp only [set_cons_succ, exprMarks, count_append]
      omega

/-- A value in a slot can displace marks and brings its own. -/
theorem count_marks_place (k : ι) (slots : List Script.Expr) (i : Nat) (value : Script.Expr) :
    (exprMarks m (place slots i value)).count k ≤
      (exprMarks m slots).count k + (value.marks m).count k := by
  have hfill (n : Nat) : exprMarks m (List.replicate n Script.Expr.undefined) = [] := by
    induction n with
    | zero => rfl
    | succ n ih => rw [replicate_succ, exprMarks, ih]; rfl
  refine Nat.le_trans (count_marks_set m k value _ i) (Nat.le_of_eq ?_)
  rw [Script.exprMarks_append, hfill, List.append_nil]

theorem count_marks_arrange (k : ι) (params : List String) (positional : List Script.Expr)
    (known extra : List (String × Script.Expr)) :
    (exprMarks m (arrange params positional known extra)).count k ≤
      (exprMarks m positional).count k + (namedMarks m known).count k +
        (namedMarks m extra).count k := by
  rw [arrange, Script.exprMarks_append, marks_options, count_append]
  refine Nat.add_le_add_right ?_ _
  induction known generalizing positional with
  | nil => exact Nat.le_add_right ..
  | cons p known ih =>
    refine Nat.le_trans (ih _) ?_
    have hplace := count_marks_place m k positional (params.idxOf p.1) p.2
    simp only [namedMarks, map_cons, exprMarks, count_append]
    omega

theorem count_marks_builtinCall (k : ι) (b : Builtin) (key : String)
    (positional : List Script.Expr) (named : List (String × Script.Expr)) :
    ((builtinCall b key positional named).marks m).count k =
      (exprMarks m positional).count k + (namedMarks m named).count k := by
  have hcontext : exprMarks m (if b.takesContext then [.name "ctx"] else []) = [] := by
    split <;> rfl
  unfold builtinCall
  dsimp only
  split
  all_goals
    simp only [Script.Expr.marks, exprMarks, cons_append, nil_append,
      Script.exprMarks_append, marks_options, hcontext, count_append, List.append_nil]
  all_goals omega

end

variable [DecidableEq ι] [Ledger m] {N : String → Prop}

section Calls

variable {args : List Arg}

theorem draws_positionalArgs : {args : List Arg} →
    (∀ a ∈ args, DrawsExpr m N (expr env true a.value)) →
    Draws m N [] (positionalArgs env args) (exprMarks m)
  | [], _ => draws_empty rfl
  | .mk name value :: args, h => by
    obtain ⟨hvalue, hargs⟩ := forall_mem_cons.1 h
    unfold positionalArgs
    split
    · refine hvalue.bind fun _ => (draws_positionalArgs hargs).bind fun _ =>
        draws_pure fun k => ?_
      simp only [exprMarks, count_append, count_nil]
      omega
    · exact draws_positionalArgs hargs

theorem draws_namedArgs (keep : String → Bool) : {args : List Arg} →
    (∀ a ∈ args, DrawsExpr m N (expr env true a.value)) →
    Draws m N [] (namedArgs env keep args) (namedMarks m)
  | [], _ => draws_empty rfl
  | .mk name value :: args, h => by
    obtain ⟨hvalue, hargs⟩ := forall_mem_cons.1 h
    unfold namedArgs
    split
    · refine hvalue.bind fun _ => (draws_namedArgs keep hargs).bind fun _ =>
        draws_pure fun k => ?_
      simp only [namedMarks, map_cons, exprMarks, count_append, count_nil]
      omega
    · exact draws_namedArgs keep hargs

theorem draws_argAt {absent : Script.Expr} (habsent : absent.marks m = []) :
    (place : Option Nat) → {args : List Arg} →
    (∀ a ∈ args, DrawsExpr m N (expr env true a.value)) →
    DrawsExpr m N (argAt env absent place args)
  | none, args, _ => by
    rw [argAt]
    exact draws_empty habsent
  | some _, [], _ => by
    rw [argAt]
    · exact draws_empty habsent
    · simp
  | some 0, .mk _ value :: args, h => by
    have hvalue := h _ (mem_cons_self ..)
    by_cases hm : value = .missing
    · subst hm
      rw [argAt]
      exact draws_empty habsent
    · rw [argAt]
      · exact hvalue
      · exact hm
  | some (i + 1), .mk _ _ :: args, h => by
    rw [argAt]
    exact draws_argAt habsent (some i) (forall_mem_cons.1 h).2

/-- The positional arguments, the known and the other named ones are lowered in this order, and
arranged behind what is in hand. -/
theorem draws_arranged {held : List ι} {args : List Arg}
    (hargs : ∀ a ∈ args, DrawsExpr m N (expr env true a.value))
    (known extra : String → Bool)
    {f : List Script.Expr → List (String × Script.Expr) → List (String × Script.Expr) →
      Script.Expr}
    (hf : ∀ k es ks xs, ((f es ks xs).marks m).count k ≤ held.count k + (exprMarks m es).count k +
      (namedMarks m ks).count k + (namedMarks m xs).count k) :
    Draws m N held (do
      let positional ← positionalArgs env args
      let known ← namedArgs env known args
      let extra ← namedArgs env extra args
      return f positional known extra : Lower Script.Expr) (Script.Expr.marks m) := by
  refine (draws_positionalArgs hargs).bind fun es => (draws_namedArgs known hargs).bind fun ks =>
    (draws_namedArgs extra hargs).bind fun xs => draws_pure fun k => ?_
  have hall := hf k es ks xs
  simp only [count_append]
  omega

/-- **The marks of a call are those of its callee and its arguments**, in each of its forms. -/
theorem draws_call (bare : Bool) (p : Pos) (key : Nat) {callee : Expr} (types : List String)
    (hcallee : DrawsExpr m N (expr env false callee))
    (hobject : ∀ q object property, callee = .member q object property →
      ∀ bare, DrawsExpr m N (expr env bare object))
    (hargs : ∀ a ∈ args, DrawsExpr m N (expr env true a.value)) :
    DrawsExpr m N (expr env bare (.call p key callee args types)) := by
  have harranged {held : List ι} {target : Script.Expr} (front : List Script.Expr)
      (hheld : ∀ k, (target.marks m).count k + (exprMarks m front).count k ≤ held.count k)
      (params : List String) :
      Draws m N held (do
        let positional ← positionalArgs env args
        let known ← namedArgs env (· ∈ params) args
        let extra ← namedArgs env (· ∉ params) args
        return .call target (arrange params (front ++ positional) known extra) :
          Lower Script.Expr) (Script.Expr.marks m) := by
    refine draws_arranged hargs _ _ fun k es ks xs => ?_
    have hfront := hheld k
    have hall := count_marks_arrange m k params (front ++ es) ks xs
    rw [Script.exprMarks_append, count_append] at hall
    rw [Script.Expr.marks, count_append]
    omega
  rw [expr]
  refine draws_get fun s => ?_
  split
  case h_1 f _ =>
    exact harranged [] (fun k => Nat.le_refl _) _
  case h_2 f _ =>
    dsimp only
    split
    · refine (hobject _ _ _ rfl true).bind fun first => harranged [first] (fun k => ?_) _
      simp [exprMarks, Script.Expr.marks]
    · exact harranged [.undefined] (fun k => Nat.le_refl _) _
  case h_3 f _ =>
    dsimp only
    split
    · refine (hobject _ _ _ rfl false).bind fun object => harranged [] (fun k => ?_) _
      simp [exprMarks, Script.Expr.marks]
    · exact harranged [] (fun k => Nat.le_refl _) _
  case h_4 r _ =>
    exact harranged [] (fun k => Nat.le_refl _) _
  case h_5 => exact draws_empty rfl
  case h_6 id _ =>
    refine (draws_argAt rfl _ hargs).bind fun value => draws_pure fun k => ?_
    simp [Script.Expr.marks]
  case h_7 id _ =>
    refine (draws_argAt rfl _ hargs).bind fun value => draws_pure fun k => ?_
    simp [Script.Expr.marks]
  case h_8 b _ =>
    have harity (name : String) (line : Int) (count : Nat) :
        Draws m N [] (warnArity b name line count) fun _ => [] := by
      unfold warnArity
      split
      · exact draws_warn _ _ _ _
      · exact draws_empty rfl
    refine (harity _ _ _).after fun _ => (draws_positionalArgs hargs).bind fun es =>
      (draws_namedArgs _ hargs).bind fun ns => draws_pure fun k => ?_
    rw [count_marks_builtinCall]
    simp only [count_append, count_nil]
    omega
  case h_9 =>
    have hunknown (name : String) (line : Int) :
        Draws m N [] (warnUnknown env name line) fun _ => [] := by
      unfold warnUnknown
      split
      · exact draws_warn _ _ _ _
      · exact draws_empty rfl
    refine (hunknown _ _).after fun _ => hcallee.bind fun target =>
      (draws_positionalArgs hargs).bind fun es => (draws_namedArgs _ hargs).bind fun ns =>
        draws_pure fun k => ?_
    rw [Script.Expr.marks, Script.exprMarks_append, marks_options]
    simp only [count_append, count_nil]
    omega

end Calls

/-! ### Choices -/

section Arms

variable {tail : Bool}

theorem draws_nativeArms : {arms : List Arm} →
    (∀ a ∈ arms, DrawsExpr m N (expr env true a.test)) →
    (∀ a ∈ arms, DrawsStmts m N (inScope (body env tail a.body))) →
    Draws m N [] (nativeArms env tail arms) (Script.caseMarks m)
  | [], _, _ => draws_empty rfl
  | .mk test stmts :: arms, htests, hbodies => by
    obtain ⟨hfirst, htests⟩ := forall_mem_cons.1 htests
    obtain ⟨hbody, hbodies⟩ := forall_mem_cons.1 hbodies
    have harms := draws_nativeArms htests hbodies
    unfold nativeArms
    split
    · exact draws_empty rfl
    · next heq =>
      cases heq
      refine hbody.bind fun _ => harms.bind fun _ => draws_pure fun k => ?_
      simp only [Script.caseMarks, count_append, count_nil]
      omega
    · next heq =>
      cases heq
      refine hfirst.bind fun _ => hbody.bind fun _ => harms.bind fun _ => draws_pure fun k => ?_
      simp only [Script.caseMarks, count_append, count_nil]
      omega

/-- The test of an arm is lowered twice if there is a subject, and the first script is dropped. -/
theorem draws_chainArms (subject : Option Nat) : {arms : List Arm} →
    (∀ a ∈ arms, ∀ bare, DrawsExpr m N (expr env bare a.test)) →
    (∀ a ∈ arms, DrawsStmts m N (inScope (body env tail a.body))) →
    Draws m N [] (chainArms env tail subject arms) (branchMarks m)
  | [], _, _ => draws_empty rfl
  | .mk test stmts :: arms, htests, hbodies => by
    obtain ⟨hfirst, htests⟩ := forall_mem_cons.1 htests
    obtain ⟨hbody, hbodies⟩ := forall_mem_cons.1 hbodies
    have harms := draws_chainArms subject htests hbodies
    have hrest {held : List ι} {cond : Script.Expr}
        (hcond : ∀ k, (cond.marks m).count k ≤ held.count k) :
        Draws m N held (do
          let stmts ← inScope (body env tail stmts)
          return (cond, stmts) :: (← chainArms env tail subject arms)) (branchMarks m) := by
      refine hbody.bind fun _ => harms.bind fun _ => draws_pure fun k => ?_
      have hk := hcond k
      simp only [branchMarks, flatMap_cons, count_append]
      omega
    unfold chainArms
    split
    · exact draws_empty rfl
    · next heq =>
      cases heq
      exact harms
    · next heq =>
      cases heq
      refine (hfirst true).bind fun bare => ?_
      dsimp only
      split
      · exact hrest fun k => by simp
      · refine (hfirst false).bind fun wrapped => hrest fun k => ?_
        simp [Script.Expr.marks]

theorem draws_lastBody : {arms : List Arm} →
    (∀ a ∈ arms, DrawsStmts m N (inScope (body env tail a.body))) →
    Draws m N [] (lastBody (defaultArm env tail arms)) (lastMarks m)
  | [], _ => draws_empty rfl
  | .mk test stmts :: arms, h => by
    obtain ⟨hbody, hbodies⟩ := forall_mem_cons.1 h
    have harms := draws_lastBody hbodies
    unfold defaultArm
    split
    · next later heq =>
      rw [heq] at harms
      exact harms
    · split
      · exact hbody.bind fun _ => draws_pure fun k => by simp [lastMarks]
      · exact draws_empty rfl

theorem draws_switchStmts {arms : List Arm} (subject : Expr) (jumps : Bool)
    (hsubject : ∀ bare, DrawsExpr m N (expr env bare subject))
    (htests : ∀ a ∈ arms, ∀ bare, DrawsExpr m N (expr env bare a.test))
    (hbodies : ∀ a ∈ arms, DrawsStmts m N (inScope (body env tail a.body))) :
    DrawsStmts m N (switchStmts subject (expr env true subject) (expr env false subject)
      (nativeArms env tail arms) (fun n => chainArms env tail n arms) (defaultArm env tail arms)
      jumps) := by
  have hbranches (n : Option Nat) := draws_chainArms n htests hbodies
  have hlast := draws_lastBody hbodies
  unfold switchStmts
  split
  · refine (hbranches none).bind fun _ => hlast.bind fun _ => draws_pure fun k => ?_
    simp only [marks_chain, count_append, count_nil]
    omega
  · split
    · refine (hsubject false).bind fun _ => draws_freshSwitch.after fun n =>
        (hbranches (some n)).bind fun _ => hlast.bind fun _ => draws_pure fun k => ?_
      simp only [stmtMarks, Script.Stmt.marks, marks_chain, count_append, count_nil]
      omega
    · refine (hsubject true).bind fun _ =>
        (draws_nativeArms (fun a ha => htests a ha true) hbodies).bind fun _ =>
          draws_pure fun k => ?_
      simp only [stmtMarks, Script.Stmt.marks, count_append, count_nil]
      omega

end Arms

/-! ### Trees -/

/-- The block of a function or of a loop starts with the series of the names that it binds. -/
theorem draws_block {binding : Lower α} {series rest : Lower (List Script.Stmt)}
    (front : List Script.Stmt) (hfront : stmtMarks m front = [])
    (hbinding : Draws m N [] binding fun _ => []) (hseries : DrawsStmts m N series)
    (hrest : DrawsStmts m N rest) :
    DrawsStmts m N (inScope do
      let _ ← binding
      let series ← series
      return front ++ series ++ (← rest)) := by
  refine Draws.inScope (hbinding.after fun _ => hseries.bind fun _ => hrest.bind fun _ =>
    draws_pure fun k => ?_)
  simp only [Script.stmtMarks_append, hfront, count_append, count_nil]
  omega

/-- A counting loop. -/
theorem draws_forCount (hN : ∀ name ∈ env.indicator.history, N name) (tail : Bool) (p : Pos)
    (counter : String) (init : Stmt) (test : Expr) (update : Stmt) {stmts : List Stmt}
    (eitherWay : Bool)
    (hi : ∀ q k n ns mode ty first, init = .decl q k n ns mode ty first →
      DrawsExpr m N (expr env false first))
    (ht : ∀ q op left last, test = .binary q op left last →
      DrawsExpr m N (expr env false last))
    (hu : ∀ q target op step, update = .assign q target op step →
      DrawsExpr m N (expr env false step))
    (hb : DrawsStmts m N (body env false stmts)) :
    DrawsStmts m N (stmt env tail (.forCount p counter init test update stmts eitherWay)) := by
  have hblock (loop : Nat) := draws_block [.guard loop env.loopLimit] rfl
    (draws_define counter .loop) (draws_afterDeclare hN counter) hb
  cases init with
  | decl q k n ns m ty first =>
    cases update with
    | assign q' target op step =>
      rw [stmt]
      refine (hi _ _ _ _ _ _ _ rfl).bind fun _ => ?_
      cases test with
      | binary q'' op' left last =>
        refine (ht _ _ _ _ rfl).bind fun _ => (hu _ _ _ _ rfl).bind fun _ =>
          draws_freshLoop.bind fun loop => (hblock loop).bind fun _ => draws_pure fun k => ?_
        split
        all_goals
          simp only [stmtMarks, Script.Stmt.marks, count_append, count_nil]
          omega
      | _ => exact draws_fail _ _
    | _ => exact draws_fail _ _
  | _ => exact draws_fail _ _

mutual

/-- **An expression** draws the marks in its blocks from the ledger. -/
theorem draws_expr (hN : ∀ name ∈ env.indicator.history, N name) :
    (e : Expr) → ∀ bare, DrawsExpr m N (expr env bare e)
  | .missing, _ => draws_fail _ _
  | .number .., _ | .string .., _ | .bool .., _ | .na .., _ | .color .., _ => draws_empty rfl
  | .name .., _ => draws_get fun s => draws_empty (marks_nameExpr s.scopes _)
  | .member p object property, _ => by
    have hobject := draws_expr hN object false
    rw [expr]
    refine draws_get fun s => ?_
    split
    · next h => exact draws_empty (marks_memberExpr? h)
    · exact hobject.bind fun _ => draws_pure fun k => by simp [Script.Expr.marks]
  | .index p object offset, _ => by
    have hvalue := draws_expr hN object true
    rw [expr]
    refine (draws_expr hN offset true).bind fun _ => ?_
    split
    · exact draws_pure fun k => by simp [Script.Expr.marks]
    · refine hvalue.bind fun _ => draws_pure fun k => ?_
      simp [Script.Expr.marks, exprMarks]
  | .call p key callee args types, bare => by
    have hobject (q : Pos) (object : Expr) (property : String)
        (hc : callee = .member q object property) (bare : Bool) :
        DrawsExpr m N (expr env bare object) := by
      cases callee with
      | member _ part _ =>
        obtain ⟨-, rfl, -⟩ := Expr.member.inj hc
        exact draws_expr hN part bare
      | _ => cases hc
    exact draws_call bare p key types (draws_expr hN callee false) hobject (draws_args hN args)
  | .binary _ _ left right, bare => by
    refine (draws_expr hN left false).bind fun _ => (draws_expr hN right false).bind fun _ =>
      draws_pure fun k => ?_
    simp only [marks_wrap, Script.Expr.marks, count_append, count_nil]
    omega
  | .unary p op operand, bare => by
    refine (draws_expr hN operand false).bind fun _ => ?_
    cases op with
    | other spelling => exact draws_fail _ _
    | not | neg | plus => exact draws_pure fun k => by simp [marks_wrap, Script.Expr.marks]
  | .ternary _ cond yes no, bare => by
    refine (draws_expr hN cond false).bind fun _ => (draws_expr hN yes false).bind fun _ =>
      (draws_expr hN no false).bind fun _ => draws_pure fun k => ?_
    simp only [marks_wrap, Script.Expr.marks, count_append, count_nil]
    omega
  | .array _ elements, _ =>
    (draws_exprs hN elements).bind fun _ => draws_pure fun k => by simp [Script.Expr.marks]
  | .switch _ subject arms, _ => by
    refine Draws.inScope ((draws_switchStmts subject (hasLoopJump arms) (draws_expr hN subject)
      (draws_tests hN arms) (draws_bodies hN true arms)).bind fun _ => draws_pure fun k => ?_)
    simp [marks_valueBlock]
  | .ifElse _ cond yes no, _ => by
    refine Draws.inScope ((draws_expr hN cond true).bind fun _ =>
      (draws_body hN true yes).inScope.bind fun _ => (draws_elseBranch hN true no).bind fun _ =>
        draws_pure fun k => ?_)
    simp only [marks_valueBlock, stmtMarks, Script.Stmt.marks, count_append, count_nil]
    omega

theorem draws_exprs (hN : ∀ name ∈ env.indicator.history, N name) :
    (es : List Expr) → Draws m N [] (exprs env es) (exprMarks m)
  | [] => draws_empty rfl
  | e :: es => by
    refine (draws_expr hN e true).bind fun _ => (draws_exprs hN es).bind fun _ =>
      draws_pure fun k => ?_
    simp only [exprMarks, count_append, count_nil]
    omega

theorem draws_args (hN : ∀ name ∈ env.indicator.history, N name) : (args : List Arg) →
    ∀ a ∈ args, DrawsExpr m N (expr env true a.value)
  | [] => nofun
  | .mk _ value :: args => forall_mem_cons.2 ⟨draws_expr hN value true, draws_args hN args⟩

/-- **A statement** draws the marks of its series, and of the blocks in it, from the ledger. -/
theorem draws_stmt (hN : ∀ name ∈ env.indicator.history, N name) :
    (s : Stmt) → ∀ tail, DrawsStmts m N (stmt env tail s)
  | .missing, _ => draws_fail _ _
  | .decl p key name names qualifier _ value, tail => by
    refine (draws_expr hN value false).bind fun v => ?_
    rw [List.append_nil]
    refine (draws_declStmts hN p key name names qualifier v).bind_held fun _ =>
      draws_pure fun k => ?_
    rw [Script.stmtMarks_append]
    cases tail <;> simp [stmtMarks, Script.Stmt.marks, marks_declaredValue]
  | .assign p target op value, tail => by
    have htarget := draws_expr hN target false
    rw [stmt]
    refine (draws_expr hN value false).bind fun _ => ?_
    cases target with
    | name q n =>
      refine (draws_afterAssign n).bind fun _ => draws_pure fun k => ?_
      cases tail
      all_goals
        simp [stmtMarks, Script.Stmt.marks, Script.Expr.marks, Script.stmtMarks_append]
        omega
    | member q object property =>
      refine htarget.bind fun _ => draws_pure fun k => ?_
      simp [stmtMarks, Script.Stmt.marks]
    | _ => exact draws_fail _ _
  | .func _ name params stmts isMethod, _ => by
    refine (draws_block [] rfl (draws_defineAll .param (params.map Param.name))
      (draws_afterDeclareAll hN _) (draws_body hN true stmts)).bind fun _ =>
        draws_pure fun k => ?_
    simp [stmtMarks, Script.Stmt.marks, marks_shims]
  | .ifElse _ cond yes no, tail => by
    refine (draws_expr hN cond true).bind fun _ => (draws_body hN tail yes).inScope.bind fun _ =>
      (draws_elseBranch hN tail no).bind fun _ => draws_pure fun k => ?_
    simp only [stmtMarks, Script.Stmt.marks, count_append, count_nil]
    omega
  | .whileLoop _ cond stmts, _ => by
    refine (draws_expr hN cond true).bind fun _ => draws_freshLoop.bind fun loop =>
      (draws_body hN false stmts).inScope.bind fun _ => draws_pure fun k => ?_
    simp only [stmtMarks, Script.Stmt.marks, count_append, count_nil]
    omega
  | .forCount p counter init test update stmts eitherWay, tail => by
    -- the parts of the loop are themselves parts of the three statements that it holds
    refine draws_forCount hN tail p counter init test update eitherWay ?_ ?_ ?_
      (draws_body hN false stmts)
    · intro _ _ _ _ _ _ _ hc
      cases init with
      | decl _ _ _ _ _ _ first =>
        obtain ⟨-, -, -, -, -, -, rfl⟩ := Stmt.decl.inj hc
        exact draws_expr hN first false
      | _ => cases hc
    · intro _ _ _ _ hc
      cases test with
      | binary _ _ _ last =>
        obtain ⟨-, -, -, rfl⟩ := Expr.binary.inj hc
        exact draws_expr hN last false
      | _ => cases hc
    · intro _ _ _ _ hc
      cases update with
      | assign _ _ _ step =>
        obtain ⟨-, -, -, rfl⟩ := Stmt.assign.inj hc
        exact draws_expr hN step false
      | _ => cases hc
  | .forIn _ index item collection stmts, _ => by
    refine (draws_expr hN collection false).bind fun _ => draws_freshLoop.bind fun loop =>
      (draws_block [.guard loop env.loopLimit] rfl (draws_defineAll .loop _)
        (draws_afterDeclareAll hN _) (draws_body hN false stmts)).bind fun _ =>
          draws_pure fun k => ?_
    split
    all_goals
      simp only [stmtMarks, Script.Stmt.marks, count_append, count_nil]
      omega
  | .ret p value, tail => by
    have hvalue := draws_expr hN value true
    by_cases hm : value = .missing
    · subst hm
      rw [stmt]
      exact draws_empty rfl
    · rw [stmt]
      · exact hvalue.bind fun _ => draws_pure fun k => by simp [stmtMarks, Script.Stmt.marks]
      · exact hm
  | .brk _, _ | .cont _, _ => draws_empty rfl
  | .switch _ subject arms, tail =>
    draws_switchStmts subject (hasLoopJump arms) (draws_expr hN subject) (draws_tests hN arms)
      (draws_bodies hN tail arms)
  | .typeDecl p name fields, tail =>
    (draws_slots hN fields).bind fun _ => draws_pure fun k => by simp [stmtMarks, Script.Stmt.marks]
  | .importLib p path localName, tail =>
    (draws_define localName .library).after fun _ => (draws_warn _ _ _ _).after fun _ =>
      draws_empty rfl
  | .exported _ decl, _ => draws_stmt hN decl false
  | .expr _ value, tail => by
    have hvalue := draws_expr hN value true
    unfold stmt
    split
    · exact draws_empty rfl
    · refine hvalue.bind fun _ => draws_pure fun k => ?_
      cases tail <;> simp [stmtMarks, Script.Stmt.marks]

/-- **A body** draws its marks from the ledger. -/
theorem draws_body (hN : ∀ name ∈ env.indicator.history, N name) (tail : Bool) :
    (ss : List Stmt) → DrawsStmts m N (body env tail ss)
  | [] => draws_empty rfl
  | s :: ss => (draws_stmt hN s _).append (draws_body hN tail ss)

theorem draws_elseBranch (hN : ∀ name ∈ env.indicator.history, N name) (tail : Bool) :
    (ss : List Stmt) → Draws m N [] (elseBranch env tail ss) (Script.Otherwise.marks m)
  | [] => draws_empty rfl
  | s :: ss => by
    -- an else-if chain goes on with the parts of the single statement of the branch
    have hchain (q : Pos) (cond : Expr) (yes no : List Stmt)
        (hc : s :: ss = [.ifElse q cond yes no]) :
        DrawsExpr m N (expr env true cond) ∧
        DrawsStmts m N (inScope (body env tail yes)) ∧
        Draws m N [] (elseBranch env tail no) (Script.Otherwise.marks m) := by
      cases s with
      | ifElse _ first second third =>
        obtain ⟨-, rfl, rfl, rfl⟩ := Stmt.ifElse.inj (List.cons.inj hc).1
        exact ⟨draws_expr hN first true, (draws_body hN tail second).inScope,
          draws_elseBranch hN tail third⟩
      | _ => cases (List.cons.inj hc).1
    unfold elseBranch
    split
    · exact draws_empty rfl
    · next heq =>
      obtain ⟨hcond, hyes, hno⟩ := hchain _ _ _ _ heq
      refine hcond.bind fun _ => hyes.bind fun _ => hno.bind fun _ => draws_pure fun k => ?_
      simp only [Script.Otherwise.marks, count_append, count_nil]
      omega
    · next heq =>
      cases heq
      refine Draws.inScope ((draws_stmt hN s _).bind fun _ =>
        (draws_body hN tail ss).bind fun _ => draws_pure fun k => ?_)
      simp only [Script.Otherwise.marks, Script.stmtMarks_append, count_append, count_nil]
      omega

theorem draws_tests (hN : ∀ name ∈ env.indicator.history, N name) : (arms : List Arm) →
    ∀ a ∈ arms, ∀ bare, DrawsExpr m N (expr env bare a.test)
  | [] => nofun
  | .mk test _ :: arms => forall_mem_cons.2 ⟨draws_expr hN test, draws_tests hN arms⟩

theorem draws_bodies (hN : ∀ name ∈ env.indicator.history, N name) (tail : Bool) :
    (arms : List Arm) → ∀ a ∈ arms, DrawsStmts m N (inScope (body env tail a.body))
  | [] => nofun
  | .mk _ stmts :: arms => forall_mem_cons.2
      ⟨(draws_body hN tail stmts).inScope, draws_bodies hN tail arms⟩

theorem draws_slots (hN : ∀ name ∈ env.indicator.history, N name) :
    (fields : List Field) → Draws m N [] (slots env fields) (Script.slotMarks m)
  | [] => draws_empty rfl
  | .mk _ _ initial :: fields => by
    have hrest {held : List ι} {value : Script.Expr}
        (hvalue : ∀ k, (value.marks m).count k ≤ held.count k) (param member : String) :
        Draws m N held (do return .mk param member value :: (← slots env fields))
          (Script.slotMarks m) := by
      refine (draws_slots hN fields).bind fun _ => draws_pure fun k => ?_
      have hk := hvalue k
      simp only [Script.slotMarks, count_append]
      omega
    have hinitial := draws_expr hN initial false
    unfold slots
    dsimp only
    split
    · exact hrest (fun k => Nat.le_refl _) _ _
    · exact hinitial.bind fun _ => hrest (fun k => by simp) _ _

end

/-! ### The prologue -/

theorem draws_sourceStmts (hN : ∀ name ∈ env.indicator.history, N name) : (names : List String) →
    DrawsStmts m N (sourceStmts env names)
  | [] => draws_empty rfl
  | name :: names => by
    refine (draws_define name .plain).after fun _ => (draws_afterDeclare hN name).bind fun _ =>
      (draws_sourceStmts hN names).bind fun _ => draws_pure fun k => ?_
    simp only [cons_append, stmtMarks, Script.Stmt.marks, Script.Expr.marks,
      Script.stmtMarks_append, count_append, count_nil]
    omega

theorem draws_historyStmts (hN : ∀ name ∈ env.indicator.history, N name) :
    (names : List String) → DrawsStmts m N (historyStmts env names)
  | [] => draws_empty rfl
  | name :: names => (draws_define name .plain).after fun _ =>
    (draws_afterDeclare hN name).append (draws_historyStmts hN names)

theorem draws_cellStmts : (pairs : List (Program.Persistent × String)) →
    (∀ p ∈ pairs, N (p.1.qualifier ++ ":" ++ p.1.name)) → DrawsStmts m N (cellStmts pairs)
  | [], _ => draws_empty rfl
  | (d, cell) :: pairs, h => by
    obtain ⟨hd, hpairs⟩ := forall_mem_cons.1 h
    refine (draws_seriesKey hd).bind fun _ => (draws_cellStmts pairs hpairs).bind fun _ =>
      draws_pure fun k => ?_
    simp only [stmtMarks, Script.Stmt.marks, count_append, count_nil]
    omega

theorem draws_prologue (hN : ∀ name ∈ env.indicator.history, N name) (program : Program)
    (hcells : ∀ d ∈ program.persistents, N (d.qualifier ++ ":" ++ d.name)) :
    DrawsStmts m N (prologue env program) := by
  refine (draws_sourceStmts hN _).bind fun _ => (draws_historyStmts hN _).bind fun _ =>
    (draws_cellStmts _ fun p hp => hcells p.1 (of_mem_zip hp).1).bind fun _ =>
      draws_pure fun k => ?_
  simp only [Script.stmtMarks_append, count_append, count_nil]
  omega

end Lowering

/-! ### Programs -/

namespace Program

/-- What a program is lowered in. -/
def context (program : Program) (options : Lowering.Options) (indicator : Indicator) :
    Lowering.Context where
  registry := options.registry
  indicator
  declarations := .ofProgram program
  cells := program.cells
  loopLimit := if options.loopLimit = 0 then Lowering.standardLoopLimit else options.loopLimit

/-- The steps that make the body of a script. -/
def steps (program : Program) (env : Lowering.Context) : Lower (List Script.Stmt) := do
  let first ← Lowering.prologue env program
  return first ++ (← Lowering.body env false program)

/-- A script is the work of the steps, from no key on. -/
theorem exists_steps_of_lower {program : Program} {options : Lowering.Options}
    {indicator : Indicator} {d d' : Diagnostics} {script : Script}
    (h : program.lower options indicator d = (.ok script, d')) :
    ∃ s, program.steps (program.context options indicator) { diagnostics := d } =
      .ok script.body s := by
  unfold lower at h
  dsimp only at h
  split at h
  · next body s hbody =>
    cases h
    exact ⟨s, hbody⟩
  · cases h

/-- **The marks in the script of a program come from the ledger.** -/
theorem draws_steps {ι : Type} [DecidableEq ι] {m : Script.Marks ι} [Lowering.Ledger m]
    {N : String → Prop} (program : Program) {env : Lowering.Context}
    (hN : ∀ name ∈ env.indicator.history, N name)
    (hcells : ∀ d ∈ program.persistents, N (d.qualifier ++ ":" ++ d.name)) :
    Lowering.DrawsStmts m N (program.steps env) :=
  (Lowering.draws_prologue hN program hcells).append (Lowering.draws_body hN false program)

end Program

end Pine
