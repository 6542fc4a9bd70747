import Pine.Lowering.Tree
import Pine.Proofs.Lowering.Ensures
import Pine.Proofs.Script.Bodies
import Pine.Proofs.Tree.Nodes

/-!
# Conditions that lowering keeps

Most steps of lowering are followed with a condition on the state that holds before and after them.
What the values have in common is then proved of the results on the way. For calls this is one
argument, whatever the condition and the property: a call in any of its forms is put together from
its callee, the object of its callee and its arguments.
-/

namespace Pine

open Lower List

/-! ### Choices for a value -/

/-- The choice that an expression makes, as a statement. -/
def Expr.choice? : Expr → Option Stmt
  | .ifElse p cond yes no => some (.ifElse p cond yes no)
  | .switch p subject arms => some (.switch p subject arms)
  | _ => none

/-- Whether the outermost choice has a branch for every case. -/
def Stmt.exhaustive : Stmt → Bool
  | .ifElse _ _ _ no => Lowering.endsInElse no
  | .switch _ _ arms => Lowering.hasDefault arms
  | _ => true

/-- An expression that has no script, whatever its parts are. -/
def Expr.IsBroken : Expr → Prop
  | .missing | .unary _ (.other _) _ => True
  | _ => False

theorem Expr.parts_of_choice {e : Expr} {choice : Stmt} (h : e.choice? = some choice) :
    e.parts = choice.parts := by
  cases e <;> cases h <;> rfl

namespace Lowering

variable {env : Context} {I : State → Prop} {α β : Type}

/-! ### Steps -/

/-- A step that keeps a condition on the state and whose result has a property. -/
def Keeps (I : State → Prop) (step : Lower α) (P : α → Prop) : Prop :=
  ∀ s, I s → Ensures step s fun a s' => P a ∧ I s'

section

variable {step : Lower α} {next : α → Lower β} {P : α → Prop} {Q : β → Prop}

theorem keeps_pure {a : α} (h : P a) : Keeps I (pure a) P := fun _ hs => ensures_pure ⟨h, hs⟩

theorem keeps_fail (pos : Pos) (gap : Gap) : Keeps I (fail pos gap) P :=
  fun _ _ => ensures_fail pos gap

theorem Keeps.bind (h : Keeps I step P) (h' : ∀ a, P a → Keeps I (next a) Q) :
    Keeps I (step >>= next) Q :=
  fun s hs => (h s hs).bind fun a s' ha => h' a ha.1 s' ha.2

theorem keeps_get {next : State → Lower β} (h : ∀ s, Keeps I (next s) Q) :
    Keeps I (get >>= next) Q :=
  fun s hs => ensures_get (h s s hs)

end

/-- A way to follow steps: what holds of a step by itself, in sequence and with a look at the
state. Steps may fail where `F` holds. -/
structure StepLogic (F : Prop) (K : {α : Type} → Lower α → (α → Prop) → Prop) : Prop where
  pure : ∀ {α : Type} {P : α → Prop} {a : α}, P a → K (pure a) P
  bind : ∀ {α β : Type} {P : α → Prop} {Q : β → Prop} {step : Lower α} {next : α → Lower β},
    K step P → (∀ a, P a → K (next a) Q) → K (step >>= next) Q
  get : ∀ {β : Type} {Q : β → Prop} {next : State → Lower β},
    (∀ s, K (next s) Q) → K (get >>= next) Q
  fail : F → ∀ {α : Type} {P : α → Prop} (pos : Pos) (gap : Gap), K (fail pos gap : Lower α) P

/-- Steps that keep a condition. -/
theorem stepLogic_keeps (I : State → Prop) : StepLogic True (Keeps I) :=
  ⟨keeps_pure, Keeps.bind, keeps_get, fun _ => keeps_fail⟩

/-- Whatever the state, the result of a step has a property. -/
abbrev Gives (step : Lower α) (P : α → Prop) : Prop := Keeps (fun _ => True) step P

section Gives

variable {step : Lower α} {next : α → Lower β} {P P' : α → Prop} {Q : β → Prop}

theorem gives_of_ensures (h : ∀ s, Ensures step s fun a _ => P a) : Gives step P :=
  fun s _ => (h s).mono fun _ _ ha => ⟨ha, trivial⟩

theorem gives_any (step : Lower α) : Gives step fun _ => True := fun _ _ _ _ _ => ⟨trivial, trivial⟩

/-- What follows any result of a step. -/
theorem gives_after (h : ∀ a, Gives (next a) Q) : Gives (step >>= next) Q :=
  (gives_any step).bind fun a _ => h a

theorem Gives.mono (h : Gives step P) (h' : ∀ a, P a → P' a) : Gives step P' :=
  fun s _ => (h s trivial).mono fun a _ ha => ⟨h' a ha.1, trivial⟩

theorem Gives.inScope (h : Gives step P) : Gives (inScope step) P :=
  fun _ _ => Ensures.inScope (h _ trivial)

end Gives

theorem ensures_warn {s : State} (severity : Severity) (feature : String) (line : Int)
    (message : String) :
    Ensures (warn severity feature line message) s fun _ s' =>
      ∃ diagnostics, s' = { s with diagnostics } := by
  rintro _ _ ⟨⟩
  exact ⟨_, rfl⟩

/-! ### Declarations -/

/-- A statement that gives a value to variables, or that keeps cells, series and methods. -/
def IsDeclaration (value : Script.Expr) : Script.Stmt → Prop
  | .bind _ v | .bindTuple _ v | .assignTuple _ v | .restore _ _ v | .assign (.name _) _ v =>
    v = value
  | .bindAll _ | .store .. | .series .. | .record _ | .accessor _ | .shim .. => True
  | _ => False

/-- Code that only gives a value to variables and keeps cells, series and methods. -/
def Declares (value : Script.Expr) (code : List Script.Stmt) : Prop :=
  ∀ s ∈ code, IsDeclaration value s

section Declares

variable {value : Script.Expr}

theorem declares_nil : Declares value [] := forall_mem_nil _

theorem Declares.append {code rest : List Script.Stmt} (h : Declares value code)
    (h' : Declares value rest) : Declares value (code ++ rest) :=
  forall_mem_append.2 ⟨h, h'⟩

theorem Declares.cons {s : Script.Stmt} {code : List Script.Stmt} (hs : IsDeclaration value s)
    (h : Declares value code) : Declares value (s :: code) :=
  forall_mem_cons.2 ⟨hs, h⟩

theorem declares_stores (s : Symbol) : Declares value (stores s) := by
  unfold stores
  refine Declares.append ?_ ?_
  · split
    · exact .cons trivial declares_nil
    · exact declares_nil
  · split
    · exact .cons trivial declares_nil
    · exact declares_nil

theorem gives_afterAssign (name : String) : Gives (afterAssign name) (Declares value) := by
  refine gives_of_ensures fun s => (ensures_afterAssign name).mono ?_
  rintro _ _ ⟨rfl, -⟩
  cases s.scopes.find? name with
  | none => exact declares_nil
  | some symbol => exact declares_stores symbol

theorem gives_afterDeclare (name : String) : Gives (afterDeclare env name) (Declares value) := by
  refine gives_after fun symbol => ?_
  dsimp only
  split
  · refine gives_after fun _ => gives_after fun _ => keeps_pure ?_
    exact .cons trivial (.cons trivial (.cons trivial declares_nil))
  · exact keeps_pure declares_nil

theorem gives_afterDeclareAll : (names : List String) →
    Gives (afterDeclareAll env names) (Declares value)
  | [] => keeps_pure declares_nil
  | name :: names => (gives_afterDeclare name).bind fun _ hfirst =>
    (gives_afterDeclareAll names).bind fun _ hrest => keeps_pure (hfirst.append hrest)

theorem gives_afterTuple : (names : List (String × Bool)) →
    Gives (afterTuple env names) (Declares value)
  | [] => keeps_pure declares_nil
  | (name, existed) :: rest => by
    have hrest : Gives (afterTuple env rest) (Declares value) := gives_afterTuple rest
    cases existed with
    | true => exact (gives_afterAssign name).bind fun _ hf => hrest.bind fun _ hr =>
      keeps_pure (hf.append hr)
    | false => exact (gives_afterDeclare name).bind fun _ hf => hrest.bind fun _ hr =>
      keeps_pure (hf.append hr)

theorem declares_shims (name : String) (params : List Param) (isMethod : Bool) :
    Declares value (shims env name params isMethod) := by
  unfold shims
  repeat' split
  · exact .cons trivial declares_nil
  · exact declares_nil
  · exact declares_nil

theorem declares_tupleStmts (names : List String) (existed : List Bool) :
    Declares value (tupleStmts names existed value) := by
  unfold tupleStmts
  dsimp only
  repeat' split
  · exact .cons rfl declares_nil
  · exact .cons trivial (.cons rfl declares_nil)
  · exact .cons rfl declares_nil

/-- **A declaration** only gives its value to variables. -/
theorem gives_declStmts (pos : Pos) (key : Nat) (name : String) (names : List String)
    (qualifier : String) :
    Gives (declStmts env pos key name names qualifier value) (Declares value) := by
  unfold declStmts
  split
  · exact gives_after fun existed => (gives_afterTuple _).bind fun _ hrest =>
      keeps_pure ((declares_tupleStmts names existed).append hrest)
  · split
    · refine gives_after fun existed => ?_
      split
      · exact (gives_afterAssign name).bind fun _ h => keeps_pure (.cons rfl h)
      · split
        · exact keeps_fail _ _
        · exact gives_after fun _ => (gives_afterDeclare name).bind fun _ h =>
            keeps_pure (.cons rfl (.cons trivial h))
    · refine gives_after fun existed => ?_
      split
      · exact (gives_afterAssign name).bind fun _ h => keeps_pure (.cons rfl h)
      · exact (gives_afterDeclare name).bind fun _ h => keeps_pure (.cons rfl h)

end Declares

/-! ### Loops -/

/-- A counter, and a loop whose body counts its rounds before anything else. -/
inductive Looped (limit : Nat) (E : Script.Expr → Prop) (Q : List Script.Stmt → Prop) :
    List Script.Stmt → Prop
  | intro {n : Nat} {s : Script.Stmt} {series rest : List Script.Stmt}
      (hseries : Declares .undefined series) (hrest : Q rest) (hheader : ∀ e ∈ s.header, E e)
      (hbody : s.loopBody? = some (.guard n limit :: series ++ rest)) :
      Looped limit E Q [.counter n, s]

/-- The loop of a script for a loop of the source, with the body of the source and the names that it
declares. The expressions in its head have a property. -/
inductive LoopOf (E : Script.Expr → Prop) : Stmt → List Stmt → List String →
    (Nat → List Script.Stmt → Script.Stmt) → Prop
  | whileLoop {p : Pos} {cond : Expr} {stmts : List Stmt} {c : Script.Expr} (hc : E c) :
      LoopOf E (.whileLoop p cond stmts) stmts [] fun _ => .whileLoop c
  | forStep {p : Pos} {counter : String} {init : Stmt} {test : Expr} {update : Stmt}
      {stmts : List Stmt} {first last step : Script.Expr} (op : BinaryOp) (op' : AssignOp)
      (hfirst : E first) (hlast : E last) (hstep : E step) :
      LoopOf E (.forCount p counter init test update stmts false) stmts [counter]
        fun _ => .forStep (Script.safeName counter) first op last op' step
  | forEither {p : Pos} {counter : String} {init : Stmt} {test : Expr} {update : Stmt}
      {stmts : List Stmt} {first last : Script.Expr} (hfirst : E first) (hlast : E last) :
      LoopOf E (.forCount p counter init test update stmts true) stmts [counter]
        fun n => .forEither (Script.safeName counter) n first last
  | forOf {p : Pos} {item : String} {collection : Expr} {stmts : List Stmt} {c : Script.Expr}
      (hc : E c) : LoopOf E (.forIn p "" item collection stmts) stmts [item]
        fun _ => .forOf (Script.safeName item) c
  | forEntries {p : Pos} {index item : String} {collection : Expr} {stmts : List Stmt}
      {c : Script.Expr} (hc : E c) :
      LoopOf E (.forIn p index item collection stmts) stmts [index, item]
        fun _ => .forEntries (Script.safeName index) (Script.safeName item) c

variable (env) in
/-- The counter of a loop and the loop, whose body counts its rounds and declares names. -/
def loopStmts (names : List String) (make : Nat → List Script.Stmt → Script.Stmt)
    (rest : Lower (List Script.Stmt)) : Lower (List Script.Stmt) := do
  let n ← freshLoop
  let code ← inScope do
    let _ ← defineAll .loop names
    let series ← afterDeclareAll env names
    return .guard n env.loopLimit :: series ++ (← rest)
  return [.counter n, make n code]

section Loops

variable {E : Script.Expr → Prop} {Q : List Script.Stmt → Prop} {rest : Lower (List Script.Stmt)}
  {make : Nat → List Script.Stmt → Script.Stmt}

/-- A loop without names. -/
theorem loopStmts_nil (make : Nat → List Script.Stmt → Script.Stmt) : (do
    let n ← freshLoop
    let code ← inScope rest
    return [.counter n, make n (.guard n env.loopLimit :: code)]) = loopStmts env [] make rest := by
  simp [loopStmts, inScope, defineAll, afterDeclareAll]

/-- A loop with one name. -/
theorem loopStmts_singleton (name : String) : (do
    let n ← freshLoop
    let code ← inScope do
      let _ ← define name .loop
      let series ← afterDeclare env name
      return .guard n env.loopLimit :: series ++ (← rest)
    return [.counter n, make n code]) = loopStmts env [name] make rest := by
  simp [loopStmts, inScope, defineAll, afterDeclareAll]

theorem gives_loopStmts {s : Stmt} {stmts : List Stmt} {names : List String}
    (h : LoopOf E s stmts names make) (hrest : Gives rest Q) :
    Gives (loopStmts env names make rest) (Looped env.loopLimit E Q) := by
  refine gives_after fun n => Keeps.bind (P := fun code => ∃ series rest,
    code = .guard n env.loopLimit :: series ++ rest ∧ Declares .undefined series ∧ Q rest)
    (Gives.inScope (gives_after fun _ => (gives_afterDeclareAll names).bind fun _ hseries =>
      hrest.bind fun _ hrest => keeps_pure ⟨_, _, rfl, hseries, hrest⟩)) fun code hcode =>
        keeps_pure ?_
  obtain ⟨series, rest, rfl, hseries, hrest⟩ := hcode
  cases h <;> exact .intro hseries hrest (by simp [Script.Stmt.header, *]) rfl

end Loops

/-! ### Calls -/

/-- A callee whose calls have a property if the arguments have it. -/
def Callable (P : Script.Expr → Prop) (callee : Script.Expr) : Prop :=
  ∀ args, (∀ e ∈ args, P e) → P (.call callee args)

/-- A property of expressions that calls inherit from their parts. A function is called by its name
whether or not the name has the property. -/
structure CallClosed (P : Script.Expr → Prop) : Prop where
  atom : ∀ text, P (.atom text)
  ctx : P (.name "ctx")
  member : ∀ object property, P object → P (.member object property)
  series : ∀ key value, P value → P (.series key value)
  input : ∀ id value, P value → P (.input id value)
  plot : ∀ id value, P value → P (.plot id value)
  object : ∀ named : List (String × Script.Expr), (∀ p ∈ named, P p.2) →
    P (.object (named.map fun p => .mk (Script.safeMember p.1) p.2))
  call : ∀ callee, P callee → Callable P callee
  function : ∀ n, Callable P (.name n)

section Calls

variable {P : Script.Expr → Prop}

namespace CallClosed

theorem options (hP : CallClosed P) {named : List (String × Script.Expr)}
    (h : ∀ p ∈ named, P p.2) : ∀ e ∈ options named, P e := by
  unfold Lowering.options
  split
  · exact nofun
  · exact forall_mem_singleton.2 (hP.object named h)

theorem arrange (hP : CallClosed P) (params : List String) {positional : List Script.Expr}
    {known extra : List (String × Script.Expr)} (hpositional : ∀ e ∈ positional, P e)
    (hknown : ∀ p ∈ known, P p.2) (hextra : ∀ p ∈ extra, P p.2) :
    ∀ e ∈ arrange params positional known extra, P e := by
  refine forall_mem_append.2 ⟨?_, hP.options hextra⟩
  induction known generalizing positional with
  | nil => exact hpositional
  | cons p known ih =>
    refine ih (fun e he => ?_) fun q hq => hknown q (mem_cons_of_mem _ hq)
    obtain he | rfl := mem_or_eq_of_mem_set he
    · obtain he | he := mem_append.1 he
      · exact hpositional e he
      · exact eq_of_mem_replicate he ▸ hP.atom "undefined"
    · exact hknown p (mem_cons_self ..)

theorem builtinCall (hP : CallClosed P) (b : Builtin) (key : String)
    {positional : List Script.Expr} {named : List (String × Script.Expr)}
    (hpositional : ∀ e ∈ positional, P e) (hnamed : ∀ p ∈ named, P p.2) :
    P (builtinCall b key positional named) := by
  have hctx : ∀ e ∈ (if b.takesContext then [Script.Expr.name "ctx"] else []), P e := by
    split
    · exact forall_mem_singleton.2 hP.ctx
    · exact nofun
  refine hP.call _ (hP.atom b.target) _ (forall_mem_append.2
    ⟨forall_mem_append.2 ⟨?_, hP.options hnamed⟩, hctx⟩)
  split
  · obtain ⟨hfirst, hrest⟩ := forall_mem_cons.1 hpositional
    exact forall_mem_cons.2 ⟨hP.series key _ hfirst, hrest⟩
  · exact hpositional

end CallClosed

/-- A constant is no variable. -/
theorem memberExpr?_cases {scopes : Scopes} {e : Expr} {script : Script.Expr}
    (h : memberExpr? env scopes e = some script) :
    (∃ value, script = .literal value) ∨ ∃ text, script = .atom text := by
  unfold memberExpr? constantExpr? at h
  dsimp only at h
  split at h
  · cases h
  · split at h
    · exact .inl ⟨_, (Option.some.inj h).symm⟩
    · exact .inr ⟨_, (Option.some.inj h).symm⟩
    · split at h
      · exact .inl ⟨_, (Option.some.inj h).symm⟩
      · cases h

/-- A property that all expressions other than variables and blocks inherit from their parts. -/
structure ExprClosed (P : Script.Expr → Prop) : Prop extends CallClosed P where
  literal : ∀ value, P (.literal value)
  unary : ∀ op operand, P operand → P (.unary op operand)
  binary : ∀ op left right, P left → P right → P (.binary op left right)
  ternary : ∀ cond yes no, P cond → P yes → P no → P (.ternary cond yes no)
  paren : ∀ inner, P inner → P (.paren inner)
  array : ∀ elements, (∀ e ∈ elements, P e) → P (.array elements)

theorem ExprClosed.wrap (hP : ExprClosed P) (bare : Bool) {e : Script.Expr} (h : P e) :
    P (wrap bare e) := by
  cases bare with
  | true => exact h
  | false => exact hP.paren e h

/-- A choice for its value is the statement, in a scope and a block of its own. -/
theorem expr_choice (bare : Bool) {e : Expr} {choice : Stmt} (h : e.choice? = some choice) :
    expr env bare e = inScope (stmt env true choice >>= fun code =>
      pure (valueBlock choice.exhaustive code)) := by
  cases e with
  | switch | ifElse =>
    cases h
    rw [expr, stmt]
    simp [Stmt.exhaustive]
  | _ => cases h

theorem isSome_defaultArm (tail : Bool) (arms : List Arm) :
    (defaultArm env tail arms).isSome = hasDefault arms := by
  induction arms with
  | nil =>
    rw [defaultArm]
    rfl
  | cons arm arms ih =>
    obtain ⟨test, stmts⟩ := arm
    rw [defaultArm, hasDefault, any_cons, ← hasDefault, ← ih]
    cases defaultArm env tail arms with
    | some later => exact (Bool.or_true _).symm
    | none => cases hm : test.isMissing <;> simp [hm, Arm.test]

/-- The cases of a native switch, each of which comes from an arm. -/
inductive CasesOf (E : Script.Expr → Prop) (B : List Stmt → List Script.Stmt → Prop) :
    List Arm → List Script.Case → Prop
  | nil : CasesOf E B [] []
  | default {stmts : List Stmt} {code : List Script.Stmt} {arms : List Arm}
      {cases : List Script.Case} (hbody : B stmts code) (h : CasesOf E B arms cases) :
      CasesOf E B (.mk .missing stmts :: arms) (.default code :: cases)
  | test {test : Expr} {value : Script.Expr} {stmts : List Stmt} {code : List Script.Stmt}
      {arms : List Arm} {cases : List Script.Case} (hne : test ≠ .missing) (hvalue : E value)
      (hbody : B stmts code) (h : CasesOf E B arms cases) :
      CasesOf E B (.mk test stmts :: arms) (.test value code :: cases)

section Logic

variable {F : Prop} {K : {α : Type} → Lower α → (α → Prop) → Prop} (hK : StepLogic F K)

include hK

/-! ### Arguments -/

theorem keeps_positionalArgs : {args : List Arg} →
    (∀ a ∈ args, K (expr env true a.value) P) →
    K (positionalArgs env args) fun es => ∀ e ∈ es, P e
  | [], _ => hK.pure nofun
  | .mk name value :: args, h => by
    obtain ⟨hvalue, hargs⟩ := forall_mem_cons.1 h
    unfold positionalArgs
    split
    · exact hK.bind hvalue fun _ hv => hK.bind (keeps_positionalArgs hargs) fun _ hes =>
        hK.pure (forall_mem_cons.2 ⟨hv, hes⟩)
    · exact keeps_positionalArgs hargs

theorem keeps_namedArgs (keep : String → Bool) : {args : List Arg} →
    (∀ a ∈ args, K (expr env true a.value) P) →
    K (namedArgs env keep args) fun ps => ∀ p ∈ ps, P p.2
  | [], _ => hK.pure nofun
  | .mk name value :: args, h => by
    obtain ⟨hvalue, hargs⟩ := forall_mem_cons.1 h
    unfold namedArgs
    split
    · exact hK.bind hvalue fun _ hv => hK.bind (keeps_namedArgs keep hargs) fun _ hes =>
        hK.pure (forall_mem_cons.2 ⟨hv, hes⟩)
    · exact keeps_namedArgs keep hargs

theorem keeps_argAt {absent : Script.Expr} (habsent : P absent) : (place : Option Nat) →
    {args : List Arg} → (∀ a ∈ args, K (expr env true a.value) P) →
    K (argAt env absent place args) P
  | none, args, _ => by
    rw [argAt]
    exact hK.pure habsent
  | some _, [], _ => by
    rw [argAt]
    · exact hK.pure habsent
    · simp
  | some 0, .mk _ value :: args, h => by
    have hvalue := h _ (mem_cons_self ..)
    by_cases hm : value = .missing
    · subst hm
      rw [argAt]
      exact hK.pure habsent
    · rw [argAt]
      · exact hvalue
      · exact hm
  | some (i + 1), .mk _ _ :: args, h => by
    rw [argAt]
    exact keeps_argAt habsent (some i) (forall_mem_cons.1 h).2

/-- The positional arguments, the known and the other named ones are lowered in this order. -/
theorem keeps_arranged {args : List Arg} (hargs : ∀ a ∈ args, K (expr env true a.value) P)
    (known extra : String → Bool)
    {f : List Script.Expr → List (String × Script.Expr) → List (String × Script.Expr) →
      Script.Expr}
    (hf : ∀ es ks xs, (∀ e ∈ es, P e) → (∀ p ∈ ks, P p.2) → (∀ p ∈ xs, P p.2) → P (f es ks xs)) :
    K (do
      let positional ← positionalArgs env args
      let known ← namedArgs env known args
      let extra ← namedArgs env extra args
      return f positional known extra : Lower Script.Expr) P :=
  hK.bind (keeps_positionalArgs hK hargs) fun _ hp =>
    hK.bind (keeps_namedArgs hK known hargs) fun _ hk =>
      hK.bind (keeps_namedArgs hK extra hargs) fun _ hx => hK.pure (hf _ _ _ hp hk hx)

/-- **A call inherits a property from its parts in each of its forms**: if its callee can be called,
the object of its callee, the type that it makes a value of and its arguments have the property, and
warnings keep the condition. -/
theorem keeps_call (hP : CallClosed P)
    (hwarn : ∀ severity feature line message,
      K (warn severity feature line message) fun _ => True)
    (bare : Bool) (p : Pos) (key : Nat) {callee : Expr} {args : List Arg} (types : List String)
    (hcallee : K (expr env false callee) (Callable P))
    (hobject : ∀ q object property, callee = .member q object property →
      ∀ bare, K (expr env bare object) P)
    (hrecord : ∀ scopes r, callForm env scopes callee key = .construct r →
      P (.name (Script.safeName r.name)))
    (hargs : ∀ a ∈ args, K (expr env true a.value) P) :
    K (expr env bare (.call p key callee args types)) P := by
  have hundefined : P Script.Expr.undefined := hP.atom "undefined"
  rw [expr]
  refine hK.get fun s => ?_
  split
  case h_1 f _ =>
    exact keeps_arranged hK hargs _ _ fun _ _ _ hp hk hx =>
      hP.function _ _ (hP.arrange _ hp hk hx)
  case h_2 f _ =>
    have harranged {first : Script.Expr} (hfirst : P first) :=
      keeps_arranged hK hargs (· ∈ f.params.map Param.name) (· ∉ f.params.map Param.name)
        (f := fun positional known extra => .call (.name (Script.safeName f.name))
          (arrange (f.params.map Param.name) (first :: positional) known extra))
        fun _ _ _ hp hk hx => hP.function _ _
          (hP.arrange _ (forall_mem_cons.2 ⟨hfirst, hp⟩) hk hx)
    dsimp only
    split
    · exact hK.bind (hobject _ _ _ rfl true) fun _ => harranged
    · exact hK.bind (hK.pure hundefined) fun _ => harranged
  case h_3 f _ =>
    have harranged {target : Script.Expr} (htarget : P target) :=
      keeps_arranged hK hargs (· ∈ (f.params.drop 1).map Param.name)
        (· ∉ (f.params.drop 1).map Param.name)
        (f := fun positional known extra => .call target
          (arrange ((f.params.drop 1).map Param.name) positional known extra))
        fun _ _ _ hp hk hx => hP.call _ htarget _ (hP.arrange _ hp hk hx)
    dsimp only
    split
    · exact hK.bind (hobject _ _ _ rfl false) fun _ ho => hK.bind (hK.pure (hP.member _ _ ho))
        fun _ => harranged
    · exact hK.bind (hK.pure hundefined) fun _ => harranged
  case h_4 r hform =>
    exact keeps_arranged hK hargs _ _ fun _ _ _ hp hk hx =>
      hP.call _ (hP.member _ _ (hrecord _ r hform)) _ (hP.arrange _ hp hk hx)
  case h_5 => exact hK.pure hundefined
  case h_6 id _ =>
    exact hK.bind (keeps_argAt hK hundefined _ hargs) fun _ hv => hK.pure (hP.input _ _ hv)
  case h_7 id _ =>
    exact hK.bind (keeps_argAt hK (hP.atom "NaN") _ hargs) fun _ hv => hK.pure (hP.plot _ _ hv)
  case h_8 b _ =>
    have harity (name : String) (line : Int) (count : Nat) :
        K (warnArity b name line count) fun _ => True := by
      unfold warnArity
      split
      · exact hwarn _ _ _ _
      · exact hK.pure trivial
    exact hK.bind (harity _ _ _) fun _ _ => hK.bind (keeps_positionalArgs hK hargs) fun _ hp =>
      hK.bind (keeps_namedArgs hK _ hargs) fun _ hn => hK.pure (hP.builtinCall b _ hp hn)
  case h_9 =>
    have hunknown (name : String) (line : Int) :
        K (warnUnknown env name line) fun _ => True := by
      unfold warnUnknown
      split
      · exact hwarn _ _ _ _
      · exact hK.pure trivial
    exact hK.bind (hunknown _ _) fun _ _ => hK.bind hcallee fun _ hc =>
      hK.bind (keeps_positionalArgs hK hargs) fun _ hp =>
        hK.bind (keeps_namedArgs hK _ hargs) fun _ hn =>
          hK.pure (hc _ (forall_mem_append.2 ⟨hp, hP.options hn⟩))

/-! ### Expressions -/

theorem keeps_exprs : {es : List Expr} → (∀ e ∈ es, K (expr env true e) P) →
    K (exprs env es) fun es => ∀ e ∈ es, P e
  | [], _ => hK.pure nofun
  | _ :: _, h =>
    hK.bind (forall_mem_cons.1 h).1 fun _ he =>
      hK.bind (keeps_exprs (forall_mem_cons.1 h).2) fun _ hes =>
        hK.pure (forall_mem_cons.2 ⟨he, hes⟩)

/-- **An expression inherits a property from its parts**, if names and the history of names have it
and so have the choices that are made for their values. -/
theorem keeps_expr (hP : ExprClosed P)
    (hwarn : ∀ severity feature line message,
      K (warn severity feature line message) fun _ => True)
    (bare : Bool) {e : Expr} (hbroken : e.IsBroken → F)
    (hname : ∀ p n, e = .name p n → K (expr env bare e) P)
    (hhistory : ∀ p q n offset, e = .index p (.name q n) offset → ∀ o, P o →
      K (pure (.history (Script.safeName n) o)) P)
    (hrecord : ∀ p key callee args types, e = .call p key callee args types → ∀ scopes r,
      callForm env scopes callee key = .construct r → P (.name (Script.safeName r.name)))
    (hchoice : ∀ choice, e.choice? = some choice → K (expr env bare e) P)
    (hparts : e.choice? = none → ∀ part, .expr part ∈ e.parts → ∀ bare, K (expr env bare part) P)
    (hobject : ∀ q object property, .expr (.member q object property) ∈ e.parts →
      ∀ bare, K (expr env bare object) P) :
    K (expr env bare e) P := by
  cases e with
  | missing => exact hK.fail (hbroken trivial) _ _
  | number => exact hK.pure (hP.atom _)
  | string => exact hK.pure (hP.literal _)
  | bool => exact hK.pure (hP.atom _)
  | na => exact hK.pure (hP.atom _)
  | color => exact hK.pure (hP.literal _)
  | name p n => exact hname p n rfl
  | member p object property =>
    refine hK.get fun s => ?_
    split
    · next e he =>
      obtain ⟨value, rfl⟩ | ⟨text, rfl⟩ := memberExpr?_cases he
      · exact hK.pure (hP.literal value)
      · exact hK.pure (hP.atom text)
    · exact hK.bind (hparts rfl object (.head _) false) fun _ ho => hK.pure (hP.member _ _ ho)
  | index p object offset =>
    have hvalue := hparts rfl object (.head _) true
    rw [expr]
    refine hK.bind (hparts rfl offset (.tail _ (.head _)) true) fun o ho => ?_
    split
    · exact hhistory _ _ _ _ rfl o ho
    · exact hK.bind hvalue fun _ hv => hK.pure
        (hP.call _ (hP.series _ _ hv) _ (forall_mem_singleton.2 ho))
  | call p key callee args types =>
    have hcallee : K (expr env false callee) (Callable P) := by
      have hbind := hK.bind (hparts rfl callee (.head _) false) fun _ hc => hK.pure (hP.call _ hc)
      rwa [bind_pure] at hbind
    refine keeps_call hK hP.toCallClosed hwarn bare p key types hcallee ?_ (hrecord _ _ _ _ _ rfl)
      fun a ha => hparts rfl a.value (.tail _ (mem_map.2 ⟨a, ha, rfl⟩)) true
    rintro q object property rfl
    exact hobject q object property (.head _)
  | binary p op left right =>
    exact hK.bind (hparts rfl left (.head _) false) fun _ hl =>
      hK.bind (hparts rfl right (.tail _ (.head _)) false) fun _ hr =>
        hK.pure (hP.wrap bare (hP.binary _ _ _ hl hr))
  | unary p op operand =>
    refine hK.bind (hparts rfl operand (.head _) false) fun _ ho => ?_
    cases op with
    | other spelling => exact hK.fail (hbroken trivial) _ _
    | not | neg | plus => exact hK.pure (hP.wrap bare (hP.unary _ _ ho))
  | ternary p cond yes no =>
    exact hK.bind (hparts rfl cond (.head _) false) fun _ hc =>
      hK.bind (hparts rfl yes (.tail _ (.head _)) false) fun _ hy =>
        hK.bind (hparts rfl no (.tail _ (.tail _ (.head _))) false) fun _ hn =>
          hK.pure (hP.wrap bare (hP.ternary _ _ _ hc hy hn))
  | array p elements =>
    exact hK.bind (keeps_exprs hK fun e he => hparts rfl e (mem_map_of_mem he) true)
      fun _ he => hK.pure (hP.array _ he)
  | switch | ifElse => exact hchoice _ rfl

/-! ### Fields and arms -/

theorem keeps_slots {S : List Script.Slot → Prop} (hnan : P .nan) (hnil : S [])
    (hcons : ∀ param member initial slots, P initial → S slots →
      S (.mk param member initial :: slots)) :
    {fields : List Field} →
    (∀ f ∈ fields, f.initial ≠ .missing → K (expr env false f.initial) P) →
    K (slots env fields) S
  | [], _ => hK.pure hnil
  | .mk _ _ initial :: fields, h => by
    obtain ⟨hinitial, hfields⟩ := forall_mem_cons.1 h
    have hrest := keeps_slots hnan hnil hcons hfields
    unfold slots
    split
    · exact hK.bind (hK.pure hnan) fun _ hi => hK.bind hrest fun _ hs =>
        hK.pure (hcons _ _ _ _ hi hs)
    · next hm =>
      have hvalue := hinitial fun h => hm (congrArg Expr.isMissing h)
      exact hK.bind hvalue fun _ hi => hK.bind hrest fun _ hs => hK.pure (hcons _ _ _ _ hi hs)

variable {B : List Script.Stmt → Prop}

/-- The cases of a native switch, in the order of the arms. -/
theorem keeps_nativeArms {B : List Stmt → List Script.Stmt → Prop} (tail : Bool) :
    {arms : List Arm} → (∀ a ∈ arms, a.test ≠ .missing → K (expr env true a.test) P) →
    (∀ a ∈ arms, K (inScope (body env tail a.body)) (B a.body)) →
    K (nativeArms env tail arms) (CasesOf P B arms)
  | [], _, _ => hK.pure .nil
  | .mk test stmts :: arms, htests, hbodies => by
    obtain ⟨hfirst, htests⟩ := forall_mem_cons.1 htests
    obtain ⟨hbody, hbodies⟩ := forall_mem_cons.1 hbodies
    have harms := keeps_nativeArms tail htests hbodies
    unfold nativeArms
    split
    · next heq => cases heq
    · next heq =>
      cases heq
      exact hK.bind hbody fun _ hb => hK.bind harms fun _ ha => hK.pure (.default hb ha)
    · next hm heq =>
      cases heq
      exact hK.bind (hfirst hm) fun _ ht => hK.bind hbody fun _ hb => hK.bind harms fun _ ha =>
        hK.pure (.test hm ht hb ha)

/-- The branches of a chain of choices. -/
theorem keeps_chainArms (tail : Bool) (subject : Option Nat)
    (hsubject : ∀ n ∈ subject, ∀ e, P e → P (.binary .eq (.name (Script.subjectName n)) e)) :
    {arms : List Arm} →
    (∀ a ∈ arms, a.test ≠ .missing → ∀ bare, K (expr env bare a.test) P) →
    (∀ a ∈ arms, K (inScope (body env tail a.body)) B) →
    K (chainArms env tail subject arms) fun branches => ∀ b ∈ branches, P b.1 ∧ B b.2
  | [], _, _ => hK.pure nofun
  | .mk test stmts :: arms, htests, hbodies => by
    obtain ⟨hfirst, htests⟩ := forall_mem_cons.1 htests
    obtain ⟨hbody, hbodies⟩ := forall_mem_cons.1 hbodies
    have harms := keeps_chainArms tail subject hsubject htests hbodies
    have hrest {cond : Script.Expr} (hcond : P cond) :
        K (do
          let stmts ← inScope (body env tail stmts)
          return (cond, stmts) :: (← chainArms env tail subject arms))
          fun branches => ∀ b ∈ branches, P b.1 ∧ B b.2 :=
      hK.bind hbody fun _ hb => hK.bind harms fun _ ha =>
        hK.pure (forall_mem_cons.2 ⟨⟨hcond, hb⟩, ha⟩)
    unfold chainArms
    split
    · exact hK.pure nofun
    · next heq =>
      cases heq
      exact harms
    · next hm heq =>
      cases heq
      refine hK.bind (hfirst hm true) fun _ hb => ?_
      dsimp only
      split
      · exact hK.bind (hK.pure hb) fun _ => hrest
      · exact hK.bind (hfirst hm false) fun _ hw =>
          hK.bind (hK.pure (hsubject _ rfl _ hw)) fun _ => hrest

/-- The body of the branch for all other cases. -/
theorem keeps_lastBody (tail : Bool) {arms : List Arm}
    (h : ∀ a ∈ arms, K (inScope (body env tail a.body)) B) :
    K (lastBody (defaultArm env tail arms)) fun last =>
      (∀ body ∈ last, B body) ∧ last.isSome = hasDefault arms := by
  have hdefault : ∀ step ∈ defaultArm env tail arms, K step B := by
    induction arms with
    | nil =>
      rw [defaultArm]
      rintro _ ⟨⟩
    | cons arm arms ih =>
      obtain ⟨test, stmts⟩ := arm
      obtain ⟨hbody, hbodies⟩ := forall_mem_cons.1 h
      unfold defaultArm
      split
      · next later heq => exact fun step hstep => ih hbodies step (heq ▸ hstep)
      · split
        · exact fun step hstep => Option.some.inj hstep ▸ hbody
        · rintro _ ⟨⟩
  rw [← (isSome_defaultArm tail arms : (defaultArm env tail arms).isSome = _)]
  cases hd : defaultArm env tail arms with
  | none =>
    refine hK.pure ⟨?_, rfl⟩
    rintro _ ⟨⟩
  | some step =>
    exact hK.bind (hdefault step hd) fun _ hb =>
      hK.pure ⟨fun _ hsome => Option.some.inj hsome ▸ hb, rfl⟩

end Logic

theorem stmt_ret (tail : Bool) (p : Pos) (value : Expr) :
    stmt env tail (.ret p value) =
      if value.isMissing then pure [.retVoid] else do return [.ret (← expr env true value)] := by
  cases value <;> rfl

/-- A branch that does not go on with a choice is a block. -/
theorem elseBranch_eq (tail : Bool) {s : Stmt} {ss : List Stmt}
    (h : ∀ q cond yes no, s :: ss ≠ [.ifElse q cond yes no]) :
    elseBranch env tail (s :: ss) =
      inScope (body env tail (s :: ss) >>= fun code => pure (.block code)) := by
  unfold elseBranch
  split
  · next heq => cases heq
  · next heq => exact absurd heq (h _ _ _ _)
  · next heq =>
    cases heq
    rw [body]
    simp

end Calls

end Lowering

end Pine
