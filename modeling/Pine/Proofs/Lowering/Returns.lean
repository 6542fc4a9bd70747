import Pine.Proofs.Compile.Strings
import Pine.Proofs.Lowering.Keys
import Pine.Proofs.Script.Exits

/-!
# Blocks with a value return it

An `if` or `switch` that is used for its value becomes a block of statements that returns the value
of the branch that is taken. The last statement of every branch returns, through the choices that
come last in a branch; where the outermost choice has no branch for some case, the block ends with a
return of its own. A choice that comes last in a branch and leaves out a case has no such return, so
the block can be left at its end if the outermost choice leaves out no case.
-/

namespace Pine

open List
open Script (Exit stmtsExits caseExits mem_stmtsExits_append mem_stmtsExits_singleton
  mem_stmtsExits_cons)

/-! ### Choices in the source -/

mutual

/-- The jumps in a statement that lead out of it: bare returns, and outside of its loops also what
leaves or continues a loop. Functions and blocks with a value keep their jumps. -/
def Stmt.jumps : Stmt → List Exit
  | .ret _ value => if value.isMissing then [.void] else []
  | .brk _ => [.brk]
  | .cont _ => [.cont]
  | .ifElse _ _ yes no => bodyJumps yes ++ bodyJumps no
  | .whileLoop _ _ body | .forCount _ _ _ _ _ body _ | .forIn _ _ _ _ body =>
    (bodyJumps body).filter (· = .void)
  | .switch _ _ arms => armJumps arms
  | .exported _ decl => decl.jumps
  | _ => []

/-- The jumps that lead out of a body. -/
def bodyJumps : List Stmt → List Exit
  | [] => []
  | s :: ss => s.jumps ++ bodyJumps ss

/-- The jumps that lead out of the bodies of arms. -/
def armJumps : List Arm → List Exit
  | [] => []
  | .mk _ body :: arms => bodyJumps body ++ armJumps arms

end

mutual

/-- Whether a statement has a value wherever it ends: an expression other than one that only
describes the indicator, a declaration, an assignment to a name, a return with a value, or a choice
whose branches end with such statements. -/
def Stmt.yields (env : Lowering.Context) : Stmt → Bool
  | .expr _ value => !Lowering.isSilent env value
  | .decl .. | .assign _ (.name ..) .. => true
  | .ret _ value => !value.isMissing
  | .ifElse _ _ yes no => bodyYields env yes && (no.isEmpty || bodyYields env no)
  | .switch _ _ arms => armsYield env arms
  | _ => false

/-- Whether the last statement of a body has a value. -/
def bodyYields (env : Lowering.Context) : List Stmt → Bool
  | [] => false
  | [s] => s.yields env
  | _ :: ss => bodyYields env ss

/-- Whether the last statements of all arms have values. -/
def armsYield (env : Lowering.Context) : List Arm → Bool
  | [] => true
  | .mk _ body :: arms => bodyYields env body && armsYield env arms

end

mutual

/-- Whether a choice, and every choice that comes last in one of its branches, has a branch for
every case. -/
def Stmt.total : Stmt → Bool
  | .ifElse _ _ yes no => bodyTotal yes && !no.isEmpty && bodyTotal no
  | .switch _ _ arms => Lowering.hasDefault arms && armsTotal arms
  | _ => true

/-- Whether the last statement of a body leaves out no case. -/
def bodyTotal : List Stmt → Bool
  | [] => true
  | [s] => s.total
  | _ :: ss => bodyTotal ss

/-- Whether the last statements of all arms leave out no case. -/
def armsTotal : List Arm → Bool
  | [] => true
  | .mk _ body :: arms => bodyTotal body && armsTotal arms

end

section Walk

open Lowering (outsideLoops isJump)

mutual

/-- Without a node that leaves or continues a loop, only bare returns lead out of a statement. -/
theorem Stmt.jumps_of_walk : (s : Stmt) → (s.walk outsideLoops).any isJump = false →
    ∀ x ∈ s.jumps, x = .void
  | .ret _ value, _, x, hx => by
    rw [Stmt.jumps] at hx
    split at hx
    · exact mem_singleton.1 hx
    · cases hx
  | .brk _, h, _, _ | .cont _, h, _, _ => by cases h
  | .ifElse p cond yes no, h, x, hx => by
    change (Node.stmt _ :: (cond.walk _ ++ walkStmts _ yes ++ walkStmts _ no)).any _ = false at h
    simp only [any_cons, any_append, Bool.or_eq_false_iff] at h
    obtain hx | hx := mem_append.1 hx
    · exact bodyJumps_of_walk yes h.2.1.2 x hx
    · exact bodyJumps_of_walk no h.2.2 x hx
  | .whileLoop .., _, x, hx | .forCount .., _, x, hx | .forIn .., _, x, hx => by
    simpa using (mem_filter.1 hx).2
  | .switch p subject arms, h, x, hx => by
    change (Node.stmt _ :: (subject.walk _ ++ walkArms _ arms)).any _ = false at h
    simp only [any_cons, any_append, Bool.or_eq_false_iff] at h
    exact armJumps_of_walk arms h.2.2 x hx
  | .exported p decl, h, x, hx => by
    change (Node.stmt _ :: decl.walk _).any _ = false at h
    rw [any_cons, Bool.or_eq_false_iff] at h
    exact decl.jumps_of_walk h.2 x hx
  | .missing, _, _, hx | .decl .., _, _, hx | .assign .., _, _, hx | .func .., _, _, hx
  | .typeDecl .., _, _, hx | .importLib .., _, _, hx | .expr .., _, _, hx => by cases hx

theorem bodyJumps_of_walk : (ss : List Stmt) → (walkStmts outsideLoops ss).any isJump = false →
    ∀ x ∈ bodyJumps ss, x = .void
  | [], _, _, hx => by cases hx
  | s :: ss, h, x, hx => by
    rw [walkStmts, any_append, Bool.or_eq_false_iff] at h
    obtain hx | hx := mem_append.1 hx
    · exact s.jumps_of_walk h.1 x hx
    · exact bodyJumps_of_walk ss h.2 x hx

theorem armJumps_of_walk : (arms : List Arm) → (walkArms outsideLoops arms).any isJump = false →
    ∀ x ∈ armJumps arms, x = .void
  | [], _, _, hx => by cases hx
  | .mk test body :: arms, h, x, hx => by
    simp only [walkArms, any_append, Bool.or_eq_false_iff] at h
    obtain hx | hx := mem_append.1 hx
    · exact bodyJumps_of_walk body h.1.2 x hx
    · exact armJumps_of_walk arms h.2 x hx

end

theorem armJumps_of_hasLoopJump : {arms : List Arm} → Lowering.hasLoopJump arms = false →
    ∀ x ∈ armJumps arms, x = .void
  | [], _, _, hx => by cases hx
  | .mk test body :: arms, h, x, hx => by
    rw [Lowering.hasLoopJump, any_cons, Bool.or_eq_false_iff] at h
    obtain hx | hx := mem_append.1 hx
    · exact bodyJumps_of_walk body h.1 x hx
    · exact armJumps_of_hasLoopJump h.2 x hx

theorem bodyYields_of_mem {env : Lowering.Context} : {arms : List Arm} → {a : Arm} → a ∈ arms →
    armsYield env arms = true → bodyYields env a.body = true
  | .mk _ _ :: _, _, h, hall => by
    rw [armsYield, Bool.and_eq_true] at hall
    obtain rfl | h := mem_cons.1 h
    · exact hall.1
    · exact bodyYields_of_mem h hall.2

theorem bodyTotal_of_mem : {arms : List Arm} → {a : Arm} → a ∈ arms → armsTotal arms = true →
    bodyTotal a.body = true
  | .mk _ _ :: _, _, h, hall => by
    rw [armsTotal, Bool.and_eq_true] at hall
    obtain rfl | h := mem_cons.1 h
    · exact hall.1
    · exact bodyTotal_of_mem h hall.2

theorem mem_armJumps : {arms : List Arm} → {a : Arm} → a ∈ arms → bodyJumps a.body ⊆ armJumps arms
  | .mk _ _ :: _, _, h, x, hx => by
    obtain rfl | h := mem_cons.1 h
    · exact mem_append_left _ hx
    · exact mem_append_right _ (mem_armJumps h hx)

end Walk

namespace Lowering

open Lower

variable {env : Context} {α β : Type}

/-! ### Code without jumps -/

/-- Statements that are left at their end. -/
def Passes (code : List Script.Stmt) : Prop := ∀ s ∈ code, s.exits = [.next]

theorem passes_nil : Passes [] := forall_mem_nil _

theorem Passes.cons {s : Script.Stmt} {code : List Script.Stmt} (h : Passes code)
    (hs : s.exits = [.next]) : Passes (s :: code) :=
  forall_mem_cons.2 ⟨hs, h⟩

theorem Declares.passes {value : Script.Expr} {code : List Script.Stmt}
    (h : Declares value code) : Passes code := by
  intro s hs
  have hdecl : IsDeclaration value s := h s hs
  cases s <;> first | rfl | cases hdecl

/-! ### Ways to leave lowered code -/

/-- Code is left with a value, by one of the given jumps, or at its end unless it is closed. -/
def Leaves (jumps : List Exit) (closed : Bool) (exits : List Exit) : Prop :=
  ∀ x ∈ exits, x = .value ∨ x ∈ jumps ∨ x = .next ∧ closed = false

section Leaves

variable {jumps jumps' exits : List Exit} {closed closed' : Bool} {code rest : List Script.Stmt}

theorem Leaves.mono (h : Leaves jumps closed exits) (hjumps : jumps ⊆ jumps')
    (hclosed : closed' = true → closed = true) : Leaves jumps' closed' exits := by
  intro x hx
  refine (h x hx).imp_right (Or.imp (fun hj => hjumps hj) fun hn => ⟨hn.1, ?_⟩)
  cases closed' with
  | false => rfl
  | true => exact (hclosed rfl).symm.trans hn.2

theorem leaves_append {more : List Exit} :
    Leaves jumps closed (exits ++ more) ↔ Leaves jumps closed exits ∧ Leaves jumps closed more :=
  forall_mem_append

theorem leaves_next : Leaves jumps false [.next] :=
  forall_mem_singleton.2 (.inr (.inr ⟨rfl, rfl⟩))

theorem leaves_value : Leaves jumps closed [.value] := forall_mem_singleton.2 (.inl rfl)

/-- Statements in a row: where the first ones end, the others follow. -/
theorem Leaves.seq (h : Leaves jumps closed' (stmtsExits code))
    (h' : Leaves jumps closed (stmtsExits rest)) :
    Leaves jumps closed (stmtsExits (code ++ rest)) := by
  intro x hx
  obtain ⟨hx, hne⟩ | ⟨-, hx⟩ := mem_stmtsExits_append.1 hx
  · exact (h x hx).imp_right fun hj => hj.imp_right fun hn => absurd hn.1 hne
  · exact h' x hx

theorem leaves_singleton {s : Script.Stmt} :
    Leaves jumps closed (stmtsExits [s]) ↔ Leaves jumps closed s.exits :=
  forall_congr' fun _ => imp_congr_left mem_stmtsExits_singleton

theorem Passes.leaves (h : Passes code) : Leaves jumps false (stmtsExits code) := by
  rw [Script.stmtsExits_of_forall h]
  exact leaves_next

/-- A return behind code without jumps. -/
theorem Passes.leaves_ret (h : Passes code) (tail : Bool) (value : Script.Expr) :
    Leaves jumps tail (stmtsExits (code ++ if tail then [.ret value] else [])) := by
  have hcode : Leaves jumps false (stmtsExits code) := h.leaves
  cases tail with
  | true => exact hcode.seq (leaves_singleton.2 leaves_value)
  | false =>
    rw [if_neg (by simp), List.append_nil]
    exact hcode

end Leaves

/-! ### Switches -/

variable (env) in
/-- A block is left like its statements. In tail position it is left at its end only if a branch
ends without a value, or a choice that comes last leaves out a case. -/
abbrev BlockLeaves (tail : Bool) (ss : List Stmt) (exits : List Exit) : Prop :=
  Leaves (bodyJumps ss) (tail && (bodyYields env ss && bodyTotal ss)) exits

section Switch

variable {tail : Bool} {arms : List Arm} {branches : List (Script.Expr × List Script.Stmt)}
  {last : Option (List Script.Stmt)} {jumps : List Exit} {closed : Bool}

/-- The bodies of arms, each of which is left like its last statement. -/
theorem leaves_arm {a : Arm} (ha : a ∈ arms) {exits : List Exit}
    (h : BlockLeaves env tail a.body exits) :
    Leaves (armJumps arms) (tail && (armsYield env arms && armsTotal arms)) exits := by
  refine h.mono (mem_armJumps ha) ?_
  simp only [Bool.and_eq_true]
  exact And.imp_right (And.imp (bodyYields_of_mem ha) (bodyTotal_of_mem ha))

theorem leaves_otherwise (hlast : ∀ body ∈ last, Leaves jumps closed (stmtsExits body)) :
    {branches : List (Script.Expr × List Script.Stmt)} →
    (∀ b ∈ branches, Leaves jumps closed (stmtsExits b.2)) →
    Leaves jumps (closed && last.isSome) (otherwise last branches).exits
  | [], _ => by
    cases last with
    | none =>
      rw [Option.isSome_none, Bool.and_false]
      exact leaves_next
    | some body =>
      rw [Option.isSome_some, Bool.and_true]
      exact hlast body rfl
  | (_, body) :: rest, h => by
    obtain ⟨hbody, hrest⟩ := forall_mem_cons.1 h
    exact leaves_append.2 ⟨hbody.mono (List.Subset.refl _) (by simp +contextual),
      leaves_otherwise hlast hrest⟩

/-- A chain of choices is left like its branches, and at its end if no case is left over. -/
theorem leaves_chain (h : BranchesOf (fun _ => True)
      (fun ss code => BlockLeaves env tail ss (stmtsExits code)) arms branches)
    (hlast : LastOf (fun ss code => BlockLeaves env tail ss (stmtsExits code)) arms last) :
    Leaves (armJumps arms) (tail && (armsYield env arms && armsTotal arms) && hasDefault arms)
      (stmtsExits (chain branches last)) := by
  obtain ⟨hlast, hdefault⟩ := hlast
  have hleast : ∀ body ∈ last, Leaves (armJumps arms) (tail && (armsYield env arms &&
      armsTotal arms)) (stmtsExits body) := fun body hbody =>
    (hlast body hbody).elim fun _ h => leaves_arm h.1 h.2
  rw [← hdefault]
  unfold chain
  split
  · rw [Option.isSome_none, Bool.and_false]
    exact leaves_next
  · next body =>
    rw [Option.isSome_some, Bool.and_true]
    exact leaves_singleton.2 (hleast body rfl)
  · obtain ⟨⟨-, a, ha, hbody⟩, hrest⟩ := forall_mem_cons.1 h
    exact leaves_singleton.2 (leaves_append.2
      ⟨(leaves_arm ha hbody).mono (List.Subset.refl _) (by simp +contextual),
        leaves_otherwise hleast fun b hb => (hrest b hb).2.elim fun _ h => leaves_arm h.1 h.2⟩)

/-- The cases of a native switch are left like the arms, and have a default case if these do. -/
theorem leaves_cases {cases : List Script.Case} (h : CasesOf (fun _ => True)
      (fun ss code => BlockLeaves env tail ss (stmtsExits code)) arms cases) :
    Leaves (armJumps arms) (tail && (armsYield env arms && armsTotal arms)) (caseExits cases) ∧
      cases.any Script.Case.isDefault = hasDefault arms := by
  have hlater {a : Arm} {arms : List Arm} {exits : List Exit}
      (h : Leaves (armJumps arms) (tail && (armsYield env arms && armsTotal arms)) exits) :
      Leaves (armJumps (a :: arms)) (tail && (armsYield env (a :: arms) &&
        armsTotal (a :: arms))) exits := by
    obtain ⟨_, _⟩ := a
    refine h.mono (subset_append_right _ _) ?_
    simp only [armsYield, armsTotal, Bool.and_eq_true]
    tauto
  induction h with
  | nil => exact ⟨nofun, rfl⟩
  | default hb _ ih =>
    exact ⟨leaves_append.2 ⟨leaves_arm (.head _) hb, hlater ih.1⟩, rfl⟩
  | @test test _ _ _ arms _ hne _ hb _ ih =>
    refine ⟨leaves_append.2 ⟨leaves_arm (.head _) hb, hlater ih.1⟩, ?_⟩
    have htest : test.isMissing = false := by cases test <;> first | rfl | exact absurd rfl hne
    simpa [hasDefault, Arm.test, htest, Script.Case.isDefault] using ih.2

/-- A native switch catches the jumps that leave it, and none of its cases has one. -/
theorem leaves_nativeSwitch {cases : List Script.Case} (hbrk : .brk ∉ jumps)
    (h : Leaves jumps closed (caseExits cases)) (subject : Script.Expr) :
    Leaves jumps (closed && cases.any Script.Case.isDefault)
      (stmtsExits [.switch subject cases]) := by
  refine leaves_singleton.2 (leaves_append.2 ⟨?_, fun x hx => ?_⟩)
  · split
    · exact nofun
    · next hdefault =>
      rw [Bool.not_eq_true] at hdefault
      rw [hdefault, Bool.and_false]
      exact leaves_next
  · obtain ⟨y, hy, rfl⟩ := mem_map.1 hx
    have hmono : Leaves jumps (closed && cases.any Script.Case.isDefault) (caseExits cases) :=
      h.mono (List.Subset.refl _) (by simp +contextual)
    obtain rfl | hj | ⟨rfl, hc⟩ := hmono y hy
    · exact .inl rfl
    · have hout : y.outOfSwitch = y := by
        cases y <;> first | rfl | exact absurd hj hbrk
      rw [hout]
      exact .inr (.inl hj)
    · exact .inr (.inr ⟨rfl, hc⟩)

end Switch

/-! ### Statements -/

section Stmts

variable {jumps exits : List Exit} {closed : Bool} {tail : Bool}

/-- Code that may be left at its end, behind a condition that does not hold. -/
theorem Leaves.of_eq_false (h : Leaves jumps false exits) (hclosed : closed = false) :
    Leaves jumps closed exits := hclosed ▸ h

/-- A choice is left like its branches. -/
theorem leaves_ifElse {yes no : List Stmt} {exits : List Exit} (hyes : BlockLeaves env tail yes exits)
    {more : List Exit} (hno : BlockLeaves env tail no more) (p : Pos) (cond : Expr) :
    BlockLeaves env tail [.ifElse p cond yes no] (exits ++ more) := by
  refine leaves_append.2 ⟨hyes.mono (by simp [bodyJumps, Stmt.jumps]) ?_,
    hno.mono (by simp [bodyJumps, Stmt.jumps]) ?_⟩
  · simp only [bodyYields, bodyTotal, Stmt.yields, Stmt.total, Bool.and_eq_true]
    tauto
  · simp only [bodyYields, bodyTotal, Stmt.yields, Stmt.total, Bool.and_eq_true, Bool.or_eq_true,
      Bool.not_eq_true']
    rintro ⟨htail, ⟨-, hempty | hyields⟩, ⟨-, hne⟩, htotal⟩
    · rw [hempty] at hne
      cases hne
    · exact ⟨htail, hyields, htotal⟩

/-- A switch is left like its arms, and at its end unless one of them is a default arm. -/
theorem leaves_switch {p : Pos} {subject : Expr} {arms : List Arm}
    (h : Leaves (armJumps arms) (tail && (armsYield env arms && armsTotal arms) && hasDefault arms)
      exits) : BlockLeaves env tail [.switch p subject arms] exits := by
  refine h.mono (by simp [bodyJumps, Stmt.jumps]) ?_
  simp only [bodyYields, bodyTotal, Stmt.yields, Stmt.total, Bool.and_eq_true]
  tauto

/-- A loop keeps what leaves or continues it, and may be left at its end. -/
theorem Leaves.loop (h : Leaves jumps closed exits) :
    Leaves (jumps.filter (· = .void)) false (.next :: exits.filter Exit.isReturn) := by
  refine forall_mem_cons.2 ⟨.inr (.inr ⟨rfl, rfl⟩), fun x hx => ?_⟩
  obtain ⟨hx, hreturn⟩ := mem_filter.1 hx
  obtain rfl | hj | ⟨rfl, -⟩ := h x hx
  · exact .inl rfl
  · cases x with
    | void => exact .inr (.inl (mem_filter.2 ⟨hj, rfl⟩))
    | value => exact .inl rfl
    | next | brk | cont => cases hreturn
  · cases hreturn

theorem exits_of_loopBody? {s : Script.Stmt} {body : List Script.Stmt}
    (h : s.loopBody? = some body) :
    s.exits = .next :: (stmtsExits body).filter Exit.isReturn := by
  cases s <;> cases h <;> rfl

theorem Looped.leaves {limit : Nat} {E : Script.Expr → Prop} {code : List Script.Stmt}
    (h : Looped limit E (fun rest => Leaves jumps closed (stmtsExits rest)) code) :
    Leaves (jumps.filter (· = .void)) false (stmtsExits code) := by
  obtain @⟨n, s, series, rest, hseries, hrest, -, hbody⟩ := h
  have hguard : Passes (.guard n limit :: series) := hseries.passes.cons rfl
  have hcounter : Passes [.counter n] := passes_nil.cons rfl
  refine hcounter.leaves.seq (leaves_singleton.2 ?_)
  rw [exits_of_loopBody? hbody]
  exact (hguard.leaves.seq hrest).loop

end Stmts

/-- **Bodies** are left with a value or by their jumps. In tail position they are left at their end
only if a branch ends without a value, or a choice that comes last leaves out a case. -/
theorem treeLogic_leaves (env : Context) :
    TreeLogic (T := Unit) env True (fun _ => True) (fun _ => True) (fun _ => Gives)
      (fun _ _ => True) (fun _ tail ss code => BlockLeaves env tail ss (stmtsExits code))
      (fun _ tail ss o => BlockLeaves env tail ss o.exits)
      (fun _ tail ss step => Gives step fun code => BlockLeaves env tail ss (stmtsExits code)) where
  parts _ _ _ _ := trivial
  choice _ _ := trivial
  blocks _ _ _ _ := trivial
  later _ := trivial
  steps _ := stepLogic_keeps _
  closed _ := exprClosed_true
  name _ _ := trivial
  warned _ _ _ _ _ := gives_any _
  history _ _ := keeps_pure trivial
  value _ := trivial
  bind := Keeps.bind
  failed _ _ _ _ := keeps_fail
  scope hs hQ := Gives.inScope ((hs ()).bind fun _ h => keeps_pure (hQ _ h))
  nil := keeps_pure (leaves_next.of_eq_false (by simp [bodyYields]))
  cons {_ tail s ss _ _} _ hnil hs hss := by
    refine hs.bind fun code hcode => ?_
    cases ss with
    | nil =>
      rw [hnil rfl]
      rw [isEmpty_nil, Bool.and_true] at hcode
      exact keeps_pure (by rwa [List.append_nil])
    | cons s' ss =>
      exact (hss ()).bind fun rest hrest => keeps_pure ((hcode.mono (by simp [bodyJumps]) id).seq
        (hrest.mono (subset_append_right _ _) id))
  decl {_ tail _ _ _ _ _ _ _ _} _ _ := (gives_declStmts _ _ _ _ _).bind fun _ h =>
    keeps_pure ((h.passes.leaves_ret tail _).mono (List.Subset.refl _) fun hc =>
      (Bool.and_eq_true_iff.1 hc).1)
  assign {_ tail _ _ n _ _ _} _ := (gives_afterAssign n).bind fun _ (h : Declares .undefined _) =>
    keeps_pure (((h.passes.cons rfl).leaves_ret tail _).mono (List.Subset.refl _) fun hc =>
      (Bool.and_eq_true_iff.1 hc).1)
  assignMember {_ tail _ _ _ _ _ _ _} _ _ _ := gives_after fun _ =>
    keeps_pure (leaves_next.of_eq_false (Bool.and_false tail))
  func {_ tail _ name params _ isMethod _} _ := by
    have hshims : Declares .undefined (shims env name params isMethod) :=
      declares_shims name params isMethod
    exact gives_after fun _ => keeps_pure
      ((hshims.passes.cons rfl).leaves.of_eq_false (Bool.and_false tail))
  ifElse _ hyes hno := keeps_pure (leaves_singleton.2 (leaves_ifElse hyes hno _ _))
  loop {_ tail s stmts _ _ _} _ hloop hs := (gives_loopStmts hloop (hs ())).mono fun _ h => by
    have hs : bodyJumps [s] = (bodyJumps stmts).filter (· = .void) ∧ bodyYields env [s] = false := by
      cases hloop <;> exact ⟨List.append_nil _, rfl⟩
    rw [BlockLeaves, hs.1, hs.2]
    exact h.leaves.of_eq_false (Bool.and_false tail)
  retVoid {_ _ _ value} hm := by
    refine keeps_pure (leaves_singleton.2 (forall_mem_singleton.2 (.inr (.inl ?_))))
    simp [bodyJumps, Stmt.jumps, hm]
  ret _ _ := keeps_pure (leaves_singleton.2 leaves_value)
  brk := keeps_pure (forall_mem_singleton.2 (.inr (.inl (.head _))))
  cont := keeps_pure (forall_mem_singleton.2 (.inr (.inl (.head _))))
  choices hb hl := keeps_pure (leaves_switch (leaves_chain hb hl))
  subject {_ _ _ _ _ v _ _} _ hbranches hlast := gives_after fun n => (hbranches () n).bind
    fun _ hb => (hlast ()).bind fun _ hl => by
      have hsubject : Passes [.const (Script.subjectName n) v] := passes_nil.cons rfl
      exact keeps_pure (hsubject.leaves.seq (leaves_switch (leaves_chain hb hl)))
  native _ hjumps hcases := by
    obtain ⟨hexits, hdefault⟩ := leaves_cases hcases
    have hbrk : .brk ∉ armJumps _ := fun hbrk =>
      Exit.noConfusion (armJumps_of_hasLoopJump hjumps _ hbrk)
    exact keeps_pure (leaves_switch (hdefault ▸ leaves_nativeSwitch hbrk hexits _))
  typeDecl {_ tail _ _ _} _ := gives_after fun _ =>
    keeps_pure (leaves_next.of_eq_false (Bool.and_false tail))
  importLib {_ tail _ _ _} _ := gives_after fun _ => gives_after fun _ =>
    keeps_pure (leaves_next.of_eq_false (Bool.and_false tail))
  exported {_ _ _ decl _} h := h.mono fun _ hcode => hcode.mono (List.Subset.refl _)
    (by simp [bodyYields, Stmt.yields])
  silent hsilent := keeps_pure (leaves_next.of_eq_false (by simp [bodyYields, Stmt.yields, hsilent]))
  exprStmt {_ tail _ _ _} _ _ := by
    cases tail with
    | true => exact keeps_pure (leaves_singleton.2 leaves_value)
    | false => exact keeps_pure (leaves_singleton.2 leaves_next)
  nothing := leaves_next.of_eq_false (by simp [bodyYields])
  block := id
  elseIf _ hyes hno := leaves_ifElse hyes hno _ _

/-! ### Blocks with a value -/

/-- A block whose code may be left at its end returns a value of its own there. -/
theorem leaves_valueBlock {jumps : List Exit} {closed total : Bool} {code : List Script.Stmt}
    (h : Leaves jumps closed (stmtsExits code)) (hclosed : total = true → closed = true) :
    Leaves jumps true (stmtsExits (code ++ if total then [] else [.ret .nan])) := by
  split
  · next htotal =>
    rw [List.append_nil]
    exact h.mono (List.Subset.refl _) fun _ => hclosed htotal
  · exact h.seq (leaves_singleton.2 leaves_value)

/-- **The block of a choice** is left with a value or by the jumps of the choice, if every branch
ends with a value and the choices that come last leave out no case that the outermost one has. -/
theorem gives_choice {e : Expr} {choice : Stmt} (hchoice : e.choice? = some choice)
    (hyields : choice.yields env = true) (htotal : choice.exhaustive = true → choice.total = true)
    (bare : Bool) :
    Gives (expr env bare e) fun r => ∃ body, r = .block body ∧
      Leaves choice.jumps true (stmtsExits body) := by
  rw [expr_choice bare hchoice]
  have hstmt := ((treeLogic_leaves env).node (.stmt choice) trivial (.inl trivial) () true).1
  refine Gives.inScope (hstmt.bind fun _ h => keeps_pure ⟨_, rfl, leaves_valueBlock
    (h.mono (by simp [bodyJumps]) id) fun hexhaustive => ?_⟩)
  simp [bodyYields, bodyTotal, hyields, htotal hexhaustive]

end Lowering

/-! ### Programs of sources -/

/-- **A choice that is used for its value returns one.** An `if` or `switch` anywhere in the program
of a source becomes a block, in every state of the lowering. The block is left by a return with a
value, or by a jump that the choice itself holds, provided that every branch ends with a statement
that has a value, and that no choice which comes last in a branch leaves out a case, unless the
outermost one does. -/
theorem Program.returns_of_choice {p : Program} (hp : p.IsParsed) (pruned : Bool)
    (options : Lowering.Options) (indicator : Indicator) {e : Expr} {choice : Stmt}
    (hchoice : e.choice? = some choice) :
    let program := (if pruned then p.prune else p).keyed
    let env := program.context options indicator
    .expr e ∈ program.nodes → choice.yields env = true →
    (choice.exhaustive = true → choice.total = true) → ∀ bare s,
      ∃ body s', Lowering.expr env bare e s = .ok (.block body) s' ∧
        ∀ x ∈ stmtsExits body, x = .value ∨ x ∈ choice.jumps := by
  intro program env he hyields htotal bare s
  have hcomplete : CompleteStmts anyKey program := by
    refine complete_keyed ?_
    split
    · exact complete_prune (complete_of_isParsed hp)
    · exact complete_of_isParsed hp
  have hcells : CompleteStmts (Lowering.HasCell env) program :=
    completeStmts_of_walk program hcomplete program.each_cellIn
  obtain ⟨r, s', hrun, -⟩ := Lowering.expr_succeeds e (Program.each_complete hcells _ he) bare s
  obtain ⟨⟨body, rfl, hleaves⟩, -⟩ :=
    Lowering.gives_choice hchoice hyields htotal bare s trivial r s' hrun
  refine ⟨body, s', hrun, fun x hx => ?_⟩
  exact (hleaves x hx).imp_right fun h => h.resolve_right fun hn => Bool.noConfusion hn.2

/-- A choice in a choice: both have a branch for every case, and the branches end with an
expression, declarations of one and of two names, and an assignment. -/
def Source.nestedChoice : List Char :=
  ("x = switch a\n    1 =>\n        if b\n            2\n        else if c\n            y = 3\n" ++
    "        else\n            [u, v] = f(4)\n    => y := 5\n").toList

theorem Program.returns_of_choice_nested :
    let p := (Program.parse .standard (Token.lex 64 Source.nestedChoice).tokens).program
    let env := p.keyed.context {} {}
    ∃ e choice, p.IsParsed ∧ e.choice? = some choice ∧ .expr e ∈ p.keyed.nodes ∧
      choice.yields env = true ∧ choice.exhaustive = true ∧ choice.total = true ∧
      choice.jumps = [] ∧ ∃ body s', Lowering.expr env false e {} = .ok (.block body) s' ∧
        ∀ x ∈ stmtsExits body, x = .value := by
  intro p env
  have hp : p.IsParsed := ⟨_, _, _, rfl⟩
  have hfound : (p.keyed.nodes.any fun node => node.casesOn (motive := fun _ => Bool)
      (fun _ => false) (fun e => e.choice?.any fun choice => choice.yields env &&
        choice.exhaustive && choice.total && choice.jumps.isEmpty) fun _ => false) = true := by
    have hsource : Source.nestedChoice = _ :=
      String.toList_append.trans (congrArg₂ (· ++ ·) String.toList_ofList String.toList_ofList)
    unfold env p
    rw [hsource]
    decide +kernel
  obtain ⟨node, hnode, hchoice⟩ := any_eq_true.1 hfound
  cases node with
  | expr e =>
    obtain ⟨choice, hchoice, h⟩ := (Option.any_eq_true _ _).1 hchoice
    simp only [Bool.and_eq_true, List.isEmpty_iff] at h
    obtain ⟨⟨⟨hyields, hexhaustive⟩, htotal⟩, hjumps⟩ := h
    obtain ⟨body, s', hrun, hexits⟩ := Program.returns_of_choice hp false {} {} hchoice hnode
      hyields (fun _ => htotal) false {}
    refine ⟨e, choice, hp, hchoice, hnode, hyields, hexhaustive, htotal, hjumps, body, s', hrun,
      fun x hx => (hexits x hx).resolve_right ?_⟩
    rw [hjumps]
    exact not_mem_nil
  | _ => cases hchoice

-- The inner choice leaves out a case and the outer one does not: the block may end without a value.
example :
    let source := "x = switch a\n    1 =>\n        if b\n            2\n    => 3\n".toList
    let p := (Program.parse .standard (Token.lex 64 source).tokens).program.keyed
    (p.nodes.filterMap fun
      | .expr e => match Lowering.expr (p.context {} {}) false e {} with
        | .ok (.block body) _ => some (stmtsExits body)
        | _ => none
      | _ => none) = [[.value, .value, .next]] := by
  rw [String.toList_ofList]
  decide +kernel

end Pine
