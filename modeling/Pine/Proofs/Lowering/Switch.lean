import Mathlib.Data.List.Forall2
import Mathlib.Logic.Function.Basic
import Pine.Proofs.Lowering.Keeps

/-!
# The arm that a switch runs

A switch with a subject has two scripts. A native switch keeps its default arm in place; a chain of
choices compares with a constant that holds the subject, and has the default arm at its end. Both
try the tests in the order of the arms and run one arm, the first whose test is strictly equal to
the subject, or the default arm if there is none. Without a subject the first arm runs whose test is
true.

What tests and bodies do is left open: they run in a monad of effects, so that two scripts that do
the same there evaluate the same tests, in the same order, and run the same bodies as often.
-/

namespace Pine

open List

variable {m : Type → Type} [Monad m] {V : Type}

/-! ### Choices and switches of a script -/

namespace Script

/-- What the parts of a script do with the constants in sight. Of values it only matters which are
true, and which are strictly equal. -/
structure Meaning (m : Type → Type) [Monad m] (V : Type) where
  /-- The evaluation of an expression. -/
  expr : (String → V) → Expr → m V
  /-- The run of a block. -/
  block : (String → V) → List Stmt → m Unit
  truthy : V → Bool
  same : V → V → Bool
  expr_name (ρ : String → V) (name : String) : expr ρ (.name name) = pure (ρ name)
  truthy_eq (ρ : String → V) (left right : Expr) :
    truthy <$> expr ρ (.binary .eq left right) = do
      let x ← expr ρ left
      let y ← expr ρ right
      return same x y

namespace Meaning

variable (S : Meaning m V) (ρ : String → V)

/-- The evaluation of a condition. -/
def holds (cond : Expr) : m Bool := S.truthy <$> S.expr ρ cond

/-- What follows a block of a choice. -/
def otherwise : Otherwise → m Unit
  | .nothing => pure ()
  | .block body => S.block ρ body
  | .elseIf cond body rest => do
    if ← S.holds ρ cond then S.block ρ body else otherwise rest

/-- The cases of a native switch: the first one runs whose test is strictly equal to the subject,
or else `last`. Every case ends by leaving the switch. -/
def cases (subject : V) (last : m Unit) : List Case → m Unit
  | [] => last
  | .default _ :: rest => cases subject last rest
  | .test test body :: rest => do
    if S.same subject (← S.expr ρ test) then S.block ρ body else cases subject last rest

/-- The default case of a native switch. -/
def defaultCase : List Case → m Unit
  | [] => pure ()
  | .default body :: _ => S.block ρ body
  | .test _ _ :: rest => defaultCase rest

/-- Constants, choices and switches in sequence. -/
def run (ρ : String → V) : List Stmt → m Unit
  | [] => pure ()
  | .const name value :: rest => do
    let v ← S.expr ρ value
    run (Function.update ρ name v) rest
  | .block body :: rest => do
    S.block ρ body
    run ρ rest
  | .ifElse cond yes no :: rest => do
    if ← S.holds ρ cond then S.block ρ yes else S.otherwise ρ no
    run ρ rest
  | .switch subject cases :: rest => do
    let v ← S.expr ρ subject
    S.cases ρ v (S.defaultCase ρ cases) cases
    run ρ rest
  | s :: rest => do
    S.block ρ [s]
    run ρ rest

end Meaning

end Script

namespace Lowering

open Lower (inScope)
open Script (Meaning)

/-! ### Chains of choices -/

variable (S : Meaning m V) (ρ : String → V)

/-- The branches of a chain of choices: the first one runs whose condition holds, or else `last`. -/
def branchesRun (last : m Unit) : List (Script.Expr × List Script.Stmt) → m Unit
  | [] => last
  | (cond, body) :: rest => do
    if ← S.holds ρ cond then S.block ρ body else branchesRun last rest

/-- The branch for all other cases, if there is one. -/
def lastRun (last : Option (List Script.Stmt)) : m Unit := last.elim (pure ()) (S.block ρ)

theorem otherwise_otherwise (last : Option (List Script.Stmt))
    (branches : List (Script.Expr × List Script.Stmt)) :
    S.otherwise ρ (otherwise last branches) = branchesRun S ρ (lastRun S ρ last) branches := by
  induction branches with
  | nil => cases last <;> rfl
  | cons b branches ih => rw [otherwise, Meaning.otherwise, branchesRun, ih]

theorem run_chain [LawfulMonad m] (branches : List (Script.Expr × List Script.Stmt))
    (last : Option (List Script.Stmt)) :
    S.run ρ (chain branches last) = branchesRun S ρ (lastRun S ρ last) branches := by
  cases branches with
  | nil =>
    cases last with
    | none => rfl
    | some body => exact bind_pure_unit
  | cons b branches =>
    rw [chain, Meaning.run, otherwise_otherwise, branchesRun]
    simp [Meaning.run]

/-! ### Arms of a switch -/

/-- An arm of a switch in a script: its test, unless it is the default arm, and its body. -/
structure ArmCode where
  test : Option Script.Expr
  body : List Script.Stmt

namespace ArmCode

/-- The case of a native switch. -/
def case : ArmCode → Script.Case
  | ⟨some test, body⟩ => .test test body
  | ⟨none, body⟩ => .default body

/-- The branch of a chain of choices, which compares with the subject if there is one. The default
arm is no branch. -/
def branch? (subject : Option Nat) : ArmCode → Option (Script.Expr × List Script.Stmt)
  | ⟨some test, body⟩ =>
    some (subject.elim test fun n => .binary .eq (.name (Script.subjectName n)) test, body)
  | ⟨none, _⟩ => none

/-- The place of the default arm. -/
def defaultPlace? (code : List ArmCode) : Option Nat := code.findIdx? (·.test.isNone)

/-- The body of the default arm. -/
def defaultBody? (code : List ArmCode) : Option (List Script.Stmt) :=
  (code.find? (·.test.isNone)).map ArmCode.body

/-- The place of the first arm whose test holds. The tests are evaluated in order up to that arm. -/
def firstPlace (holds : V → Bool) : List ArmCode → m (Option Nat)
  | [] => pure none
  | ⟨none, _⟩ :: rest => Option.map (· + 1) <$> firstPlace holds rest
  | ⟨some test, _⟩ :: rest => do
    if holds (← S.expr ρ test) then return some 0
    else Option.map (· + 1) <$> firstPlace holds rest

/-- The run of the arm at a place. -/
def runAt (code : List ArmCode) (place : Nat) : m Unit :=
  code[place]?.elim (pure ()) fun c => S.block ρ c.body

/-- The run of one arm: the first whose test holds, or else the default arm, or else none. -/
def runOne (holds : V → Bool) (code : List ArmCode) : m Unit := do
  let place ← firstPlace S ρ holds code
  (place.or (defaultPlace? code)).elim (pure ()) (runAt S ρ code)

section

variable [LawfulMonad m] {S ρ}

theorem firstPlace_bind (holds : V → Bool) (last : m Unit) (c : ArmCode) (rest : List ArmCode) :
    (Option.map (· + 1) <$> firstPlace S ρ holds rest >>= fun place =>
      place.elim last (runAt S ρ (c :: rest))) =
    firstPlace S ρ holds rest >>= fun place => place.elim last (runAt S ρ rest) := by
  rw [bind_map_left]
  refine bind_congr fun place => ?_
  cases place <;> rfl

/-- Cases and branches alike are tried in the order of the arms. -/
theorem cases_map (v : V) (last : m Unit) (code : List ArmCode) :
    S.cases ρ v last (code.map case) = firstPlace S ρ (S.same v) code >>= fun place =>
      place.elim last (runAt S ρ code) := by
  induction code with
  | nil => simp [Meaning.cases, firstPlace]
  | cons c code ih =>
    obtain ⟨_ | test, body⟩ := c
    · rw [map_cons, case, Meaning.cases, firstPlace, firstPlace_bind, ih]
    · rw [map_cons, case, Meaning.cases, firstPlace, bind_assoc]
      refine bind_congr fun w => ?_
      cases S.same v w
      · rw [if_neg Bool.false_ne_true, if_neg Bool.false_ne_true, firstPlace_bind, ih]
      · simp [runAt]

theorem branchesRun_filterMap {subject : Option Nat} {holds : V → Bool}
    (hholds : ∀ test, S.holds ρ (subject.elim test fun n =>
      .binary .eq (.name (Script.subjectName n)) test) = holds <$> S.expr ρ test)
    (last : m Unit) (code : List ArmCode) :
    branchesRun S ρ last (code.filterMap (branch? subject)) =
      firstPlace S ρ holds code >>= fun place => place.elim last (runAt S ρ code) := by
  induction code with
  | nil => simp [branchesRun, firstPlace]
  | cons c code ih =>
    obtain ⟨_ | test, body⟩ := c
    · rw [filterMap_cons_none rfl, firstPlace, firstPlace_bind, ih]
    · rw [filterMap_cons_some (branch?.eq_1 ..), branchesRun, hholds, bind_map_left,
        firstPlace, bind_assoc]
      refine bind_congr fun w => ?_
      cases holds w
      · rw [if_neg Bool.false_ne_true, if_neg Bool.false_ne_true, firstPlace_bind, ih]
      · simp [runAt]

omit [LawfulMonad m] in
theorem lastRun_defaultBody (code : List ArmCode) :
    lastRun S ρ (defaultBody? code) = (defaultPlace? code).elim (pure ()) (runAt S ρ code) := by
  induction code with
  | nil => rfl
  | cons c code ih =>
    obtain ⟨_ | test, body⟩ := c
    · rfl
    · have hbody : defaultBody? (⟨some test, body⟩ :: code) = defaultBody? code := rfl
      have hplace : defaultPlace? (⟨some test, body⟩ :: code) =
          (defaultPlace? code).map (· + 1) := findIdx?_cons
      rw [hbody, hplace, ih]
      cases defaultPlace? code <;> rfl

omit [LawfulMonad m] in
theorem defaultCase_map (code : List ArmCode) :
    S.defaultCase ρ (code.map case) = lastRun S ρ (defaultBody? code) := by
  induction code with
  | nil => rfl
  | cons c code ih =>
    obtain ⟨_ | test, body⟩ := c
    · rfl
    · exact ih

omit [LawfulMonad m] in
theorem runOne_eq (holds : V → Bool) (code : List ArmCode) :
    (firstPlace S ρ holds code >>= fun place =>
      place.elim (lastRun S ρ (defaultBody? code)) (runAt S ρ code)) = runOne S ρ holds code := by
  refine bind_congr fun place => ?_
  cases place with
  | none => exact lastRun_defaultBody code
  | some place => rfl

/-- **A native switch runs one arm.** -/
theorem run_native (value : Script.Expr) (code : List ArmCode) :
    S.run ρ [.switch value (code.map case)] =
      S.expr ρ value >>= fun v => runOne S ρ (S.same v) code := by
  rw [Meaning.run]
  refine bind_congr fun v => ?_
  rw [cases_map, defaultCase_map, runOne_eq]
  exact bind_pure_unit

/-- **A chain of choices runs one arm**, the first whose test is true. -/
theorem run_chain_truthy (code : List ArmCode) :
    S.run ρ (chain (code.filterMap (branch? none)) (defaultBody? code)) =
      runOne S ρ S.truthy code := by
  rw [run_chain, branchesRun_filterMap fun _ => rfl, runOne_eq]

/-- **A chain of choices behind its subject runs one arm**, the first whose test is strictly equal
to the constant that holds the subject. -/
theorem run_chain_subject (n : Nat) (value : Script.Expr) (code : List ArmCode) :
    S.run ρ (.const (Script.subjectName n) value ::
        chain (code.filterMap (branch? (some n))) (defaultBody? code)) =
      S.expr ρ value >>= fun v =>
        runOne S (Function.update ρ (Script.subjectName n) v) (S.same v) code := by
  rw [Meaning.run]
  refine bind_congr fun v => ?_
  have hholds (test : Script.Expr) :
      S.holds (Function.update ρ (Script.subjectName n) v)
        (.binary .eq (.name (Script.subjectName n)) test) =
      S.same v <$> S.expr (Function.update ρ (Script.subjectName n) v) test := by
    rw [Meaning.holds, S.truthy_eq, S.expr_name, Function.update_self, pure_bind, map_eq_pure_bind]
  rw [run_chain, branchesRun_filterMap hholds, runOne_eq]

end

end ArmCode

/-! ### Lowered arms -/

/-- What a step of lowering can give. -/
def Lowered {α : Type} (step : Lower α) (a : α) : Prop := ∃ s s', step s = .ok a s'

theorem gives_lowered {α : Type} (step : Lower α) : Gives step (Lowered step) :=
  fun s _ _ s' h => ⟨⟨s, s', h⟩, trivial⟩

/-- An arm of a script is that of a source: its test and its body are lowered from there. -/
structure ArmCode.Of (env : Context) (tail : Bool) (a : Arm) (c : ArmCode) : Prop where
  missing : c.test.isNone = a.test.isMissing
  test : ∀ e ∈ c.test, ∃ bare, Lowered (expr env bare a.test) e
  body : Lowered (inScope (Lowering.body env tail a.body)) c.body

section

variable {env : Context} {tail : Bool}

theorem isMissing_eq_false {e : Expr} (h : e ≠ .missing) : e.isMissing = false := by
  cases e <;> first | rfl | exact absurd rfl h

theorem of_default {stmts : List Stmt} {b : List Script.Stmt}
    (hb : Lowered (inScope (body env tail stmts)) b) :
    ArmCode.Of env tail (.mk .missing stmts) ⟨none, b⟩ :=
  ⟨rfl, nofun, hb⟩

theorem of_test {test : Expr} {stmts : List Stmt} (hm : test ≠ .missing) {bare : Bool}
    {e : Script.Expr} (he : Lowered (expr env bare test) e) {b : List Script.Stmt}
    (hb : Lowered (inScope (body env tail stmts)) b) :
    ArmCode.Of env tail (.mk test stmts) ⟨some e, b⟩ :=
  ⟨(isMissing_eq_false hm).symm, fun _ h => Option.mem_some.1 h ▸ ⟨bare, he⟩, hb⟩

/-- The cases of a native switch are those of the arms. -/
theorem gives_nativeArms (arms : List Arm) : Gives (nativeArms env tail arms) fun cases =>
    ∃ code, List.Forall₂ (ArmCode.Of env tail) arms code ∧ cases = code.map ArmCode.case := by
  induction arms with
  | nil => exact keeps_pure ⟨[], .nil, rfl⟩
  | cons arm arms harms =>
    obtain ⟨test, stmts⟩ := arm
    by_cases hm : test = .missing
    · subst hm
      rw [nativeArms]
      refine (gives_lowered _).bind fun b hb => harms.bind fun cases hc => ?_
      obtain ⟨code, hcode, rfl⟩ := hc
      exact keeps_pure ⟨⟨none, b⟩ :: code, .cons (of_default hb) hcode, rfl⟩
    · rw [nativeArms]
      · refine (gives_lowered _).bind fun e he => (gives_lowered _).bind fun b hb =>
          harms.bind fun cases hc => ?_
        obtain ⟨code, hcode, rfl⟩ := hc
        exact keeps_pure ⟨⟨some e, b⟩ :: code, .cons (of_test hm he hb) hcode, rfl⟩
      · exact hm

/-- The body of a branch for all other cases is that of the default arm. -/
def IsLast (env : Context) (tail : Bool) (arms : List Arm) (last : Option (List Script.Stmt)) :
    Prop :=
  match arms.find? (·.test.isMissing) with
  | none => last = none
  | some a => ∃ b, last = some b ∧ Lowered (inScope (body env tail a.body)) b

/-- The branches of a chain of choices, with a branch for all other cases, are those of the arms. -/
theorem gives_chainArms (subject : Option Nat) : (arms : List Arm) →
    arms.countP (·.test.isMissing) ≤ 1 →
    Gives (chainArms env tail subject arms) fun branches => ∀ last, IsLast env tail arms last →
      ∃ code, List.Forall₂ (ArmCode.Of env tail) arms code ∧
        branches = code.filterMap (ArmCode.branch? subject) ∧ last = ArmCode.defaultBody? code
  | [], _ => keeps_pure fun _ hlast => ⟨[], .nil, rfl, hlast⟩
  | .mk test stmts :: arms, hone => by
    by_cases hm : test = .missing
    · subst hm
      rw [countP_cons_of_pos rfl] at hone
      have hnone : arms.find? (·.test.isMissing) = none :=
        find?_eq_none.2 (countP_eq_zero.1 (Nat.le_zero.1 (Nat.le_of_succ_le_succ hone)))
      rw [chainArms]
      refine (gives_chainArms subject arms (Nat.le_of_succ_le hone)).mono fun branches hb last => ?_
      rintro ⟨b, rfl, hbody⟩
      obtain ⟨code, hcode, rfl, -⟩ := hb none (by rw [IsLast, hnone])
      exact ⟨⟨none, b⟩ :: code, .cons (of_default hbody) hcode, rfl, rfl⟩
    · have hmissing := isMissing_eq_false hm
      rw [countP_cons_of_neg (by exact Bool.eq_false_iff.1 hmissing)] at hone
      have harms := gives_chainArms subject arms hone
      have hlater {last : Option (List Script.Stmt)}
          (hlast : IsLast env tail (.mk test stmts :: arms) last) : IsLast env tail arms last := by
        rw [IsLast, find?_cons_of_neg (by exact Bool.eq_false_iff.1 hmissing)] at hlast
        exact hlast
      have hrest {bare : Bool} {e : Script.Expr} (he : Lowered (expr env bare test) e) :
          Gives (do
            let stmts ← inScope (body env tail stmts)
            return (subject.elim e fun n => .binary .eq (.name (Script.subjectName n)) e, stmts) ::
              (← chainArms env tail subject arms)) fun branches =>
                ∀ last, IsLast env tail (.mk test stmts :: arms) last →
                  ∃ code, List.Forall₂ (ArmCode.Of env tail) (.mk test stmts :: arms) code ∧
                    branches = code.filterMap (ArmCode.branch? subject) ∧
                    last = ArmCode.defaultBody? code := by
        refine (gives_lowered _).bind fun b hb => harms.bind fun branches hc => keeps_pure ?_
        intro last hlast
        obtain ⟨code, hcode, rfl, rfl⟩ := hc last (hlater hlast)
        exact ⟨⟨some e, b⟩ :: code, .cons (of_test hm he hb) hcode, rfl, rfl⟩
      rw [chainArms]
      · refine (gives_lowered _).bind fun e he => ?_
        cases subject with
        | none => exact hrest he
        | some n => exact (gives_lowered _).bind fun e he => hrest he
      · exact hm

/-- The last default arm is the first one if there is one at most. -/
theorem gives_lastBody : (arms : List Arm) → arms.countP (·.test.isMissing) ≤ 1 →
    Gives (lastBody (defaultArm env tail arms)) (IsLast env tail arms)
  | [], _ => by
    rw [defaultArm]
    exact keeps_pure rfl
  | .mk test stmts :: arms, hone => by
    cases hm : test.isMissing with
    | true =>
      have hnone : (defaultArm env tail arms).isSome = false := by
        rw [countP_cons_of_pos (by exact hm)] at hone
        have hzero := countP_eq_zero.1 (Nat.le_zero.1 (Nat.le_of_succ_le_succ hone))
        rw [isSome_defaultArm, hasDefault, any_eq_false]
        exact hzero
      rw [defaultArm, Option.isSome_eq_false_iff.1 hnone |> Option.isNone_iff_eq_none.1]
      dsimp only
      rw [if_pos hm]
      refine (gives_lowered _).bind fun b hb => keeps_pure ?_
      rw [IsLast, find?_cons_of_pos (by exact hm)]
      exact ⟨b, rfl, hb⟩
    | false =>
      rw [countP_cons_of_neg (by exact Bool.eq_false_iff.1 hm)] at hone
      have hsame : defaultArm env tail (.mk test stmts :: arms) = defaultArm env tail arms := by
        rw [defaultArm, hm]
        cases defaultArm env tail arms <;> rfl
      have hlast : IsLast env tail (.mk test stmts :: arms) = IsLast env tail arms := by
        funext last
        rw [IsLast, IsLast, find?_cons_of_neg (by exact Bool.eq_false_iff.1 hm)]
      rw [hsame, hlast]
      exact gives_lastBody arms hone

variable (env tail) in
/-- **Both scripts of a switch run the same arm.** The script of a switch with one default arm at
most is a native switch or a chain of choices over the same arms: each has the test and the body
that were lowered from the arm at its place. Either script evaluates the subject once and then the
tests in the order of the arms up to the first that is strictly equal to it, and runs the body of
that arm; if there is none, it runs the body of the default arm, or nothing if there is no default
arm either. Without a subject, the tests are evaluated up to the first that is true. -/
theorem run_switchStmts [LawfulMonad m] (subject : Expr) (arms : List Arm)
    (hone : arms.countP (·.test.isMissing) ≤ 1) (jumps : Bool) :
    Gives (switchStmts subject (expr env true subject) (expr env false subject)
      (nativeArms env tail arms) (fun n => chainArms env tail n arms) (defaultArm env tail arms)
      jumps) fun stmts => ∃ code, List.Forall₂ (ArmCode.Of env tail) arms code ∧
        if subject.isMissing then
          stmts = chain (code.filterMap (ArmCode.branch? none)) (ArmCode.defaultBody? code) ∧
            S.run ρ stmts = ArmCode.runOne S ρ S.truthy code
        else ∃ bare value, Lowered (expr env bare subject) value ∧
          if jumps then ∃ n,
            stmts = .const (Script.subjectName n) value ::
              chain (code.filterMap (ArmCode.branch? (some n))) (ArmCode.defaultBody? code) ∧
            S.run ρ stmts = S.expr ρ value >>= fun v =>
              ArmCode.runOne S (Function.update ρ (Script.subjectName n) v) (S.same v) code
          else
            stmts = [.switch value (code.map ArmCode.case)] ∧
            S.run ρ stmts = S.expr ρ value >>= fun v => ArmCode.runOne S ρ (S.same v) code := by
  unfold switchStmts
  split
  · next hm =>
    refine (gives_chainArms none arms hone).bind fun branches hbranches =>
      (gives_lastBody arms hone).bind fun last hlast => keeps_pure ?_
    obtain ⟨code, hcode, rfl, rfl⟩ := hbranches last hlast
    exact ⟨code, hcode, rfl, ArmCode.run_chain_truthy code⟩
  · next hm =>
    split
    · next hj =>
      refine (gives_lowered _).bind fun value hvalue => gives_after fun n => ?_
      refine (gives_chainArms (some n) arms hone).bind fun branches hbranches =>
        (gives_lastBody arms hone).bind fun last hlast => keeps_pure ?_
      obtain ⟨code, hcode, rfl, rfl⟩ := hbranches last hlast
      exact ⟨code, hcode, false, value, hvalue, n, rfl, ArmCode.run_chain_subject n value code⟩
    · next hj =>
      refine (gives_lowered _).bind fun value hvalue =>
        (gives_nativeArms arms).bind fun cases hcases => keeps_pure ?_
      obtain ⟨code, hcode, rfl⟩ := hcases
      exact ⟨code, hcode, true, value, hvalue, rfl, ArmCode.run_native value code⟩

/-- The value of a number is its text, and a comparison gives the empty text if it fails. -/
def tracedExpr (ρ : String → String) : Script.Expr → StateM (List String) String
  | .atom text => do
    modify (· ++ [text])
    return text
  | .name name => pure (ρ name)
  | .binary .eq left right => do
    let x ← tracedExpr ρ left
    let y ← tracedExpr ρ right
    return if x = y then "true" else ""
  | _ => pure ""

/-- A meaning that writes down the numbers that are evaluated, and the assignments and stores of the
blocks that run. -/
def traced : Meaning (StateM (List String)) String where
  expr := tracedExpr
  block _ body := modify (· ++ body.map fun
    | .assign (.name name) _ (.atom text) => name ++ " = " ++ text
    | .store cell _ => "store " ++ cell
    | _ => "")
  truthy v := v ≠ ""
  same v w := v = w
  expr_name _ _ := by rw [tracedExpr]
  truthy_eq ρ left right := by
    rw [tracedExpr, map_bind]
    refine bind_congr fun x => ?_
    rw [map_bind]
    refine bind_congr fun y => ?_
    by_cases h : x = y <;> simp [h]

/-- A default arm between two others, and a variable with a cell that an arm assigns to: whichever
script the switch gets, the test of the first arm fails, the one of the third holds, and only its
body runs, with the store that the assignment needs. -/
theorem run_switchStmts_middle_default :
    let p : Pos := ⟨1, 1⟩
    let env : Context := ⟨.empty, {}, {}, [], 0⟩
    let subject := Expr.number p "2"
    let arm (test : Expr) (text : String) :=
      Arm.mk test [.assign p (.name p "x") .set (.number p text)]
    let arms := [arm (.number p "1") "10", arm .missing "20", arm (.number p "2") "30"]
    let x : Symbol := { name := "x", kind := .persistent, cell := some "c" }
    let s : State := { scopes := { entry := [x] } }
    arms.countP (·.test.isMissing) ≤ 1 ∧ ∀ jumps, ∃ stmts s' code,
      switchStmts subject (expr env true subject) (expr env false subject)
        (nativeArms env false arms) (fun n => chainArms env false n arms)
        (defaultArm env false arms) jumps s = .ok stmts s' ∧
      List.Forall₂ (ArmCode.Of env false) arms code ∧
      ((traced.run (fun _ => "") stmts).run []).2 = ["2", "1", "2", "x = 30", "store c"] := by
  intro p env subject arm arms x s
  have hone : arms.countP (·.test.isMissing) ≤ 1 := by decide
  refine ⟨hone, fun jumps => ?_⟩
  have hrun := run_switchStmts traced (fun _ => "") env false subject arms hone jumps s trivial
  cases jumps with
  | false =>
    obtain ⟨⟨code, hcode, -⟩, -⟩ := hrun _ _ rfl
    exact ⟨_, _, code, rfl, hcode, by decide⟩
  | true =>
    obtain ⟨⟨code, hcode, -⟩, -⟩ := hrun _ _ rfl
    exact ⟨_, _, code, rfl, hcode, by decide⟩

end

end Lowering

end Pine
