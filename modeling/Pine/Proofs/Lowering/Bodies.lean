import Pine.Proofs.Lowering.Keys
import Pine.Proofs.Lowering.Trees

/-!
# The bodies of lowered programs

A native switch would catch a jump that leaves a loop around it. Lowering therefore looks for such
jumps in the arms of a switch, outside of the loops, functions and blocks with a value in them, and
makes a chain of choices where it finds one. So no jump of a script is caught by a switch: in what
becomes of a statement only those statements leap that come from a leap.

Along the way, every body of a script is seen. What holds of bodies in a row, of single statements,
of loops behind their counters and of switches that catch nothing holds throughout the script.

## Main results

* `Lowering.hasLoopJump_iff`: the jumps that lowering looks for.
* `Program.throughout_lower`: what follows such a law holds throughout the script of a program.
* `Program.native_switch_catches_nothing`: native switches.
-/

namespace Pine

open Lower List

/-! ### Leaps of the source -/

/-- A statement leaves or continues a loop around it. -/
inductive Stmt.Leaps : Stmt → Prop
  | brk (p : Pos) : Leaps (.brk p)
  | cont (p : Pos) : Leaps (.cont p)
  | yes {p : Pos} {cond : Expr} {yes no : List Stmt} {s : Stmt} (hs : s ∈ yes) (h : s.Leaps) :
      Leaps (.ifElse p cond yes no)
  | no {p : Pos} {cond : Expr} {yes no : List Stmt} {s : Stmt} (hs : s ∈ no) (h : s.Leaps) :
      Leaps (.ifElse p cond yes no)
  | arm {p : Pos} {subject : Expr} {arms : List Arm} {a : Arm} {s : Stmt} (ha : a ∈ arms)
      (hs : s ∈ a.body) (h : s.Leaps) : Leaps (.switch p subject arms)
  | exported {p : Pos} {decl : Stmt} (h : decl.Leaps) : Leaps (.exported p decl)

/-- A node with a statement that leaps. -/
def Node.Leaps : Node → Prop
  | .program ss => ∃ s ∈ ss, s.Leaps
  | .expr _ => False
  | .stmt s => s.Leaps

namespace Lowering

/-- A node leaps if it is a jump, or if one of the parts leaps with which a walk outside of loops
goes on. -/
theorem leaps_iff (n : Node) :
    n.Leaps ↔ isJump n = true ∨ ∃ m ∈ n.below (outsideLoops n), m.Leaps := by
  constructor
  · intro h
    cases n with
    | program ss =>
      obtain ⟨s, hs, h⟩ := h
      exact .inr ⟨_, mem_map_of_mem hs, h⟩
    | expr e => exact h.elim
    | stmt s =>
      cases h with
      | brk | cont => exact .inl rfl
      | yes hs h => exact .inr ⟨_, .tail _ (mem_append_left _ (mem_map_of_mem hs)), h⟩
      | no hs h => exact .inr ⟨_, .tail _ (mem_append_right _ (mem_map_of_mem hs)), h⟩
      | arm ha hs h =>
        exact .inr ⟨_, .tail _ (mem_flatMap.2 ⟨_, ha, .tail _ (mem_map_of_mem hs)⟩), h⟩
      | exported h => exact .inr ⟨_, .head _, h⟩
  · rintro (h | ⟨m, hm, h⟩)
    · cases n with
      | program | expr => cases h
      | stmt s =>
        cases s with
        | brk p => exact .brk p
        | cont p => exact .cont p
        | _ => cases h
    · cases n with
      | program ss =>
        obtain ⟨s, hs, rfl⟩ := mem_map.1 hm
        exact ⟨s, hs, h⟩
      | expr e => cases e <;> grind [Node.below, outsideLoops, Node.parts, Expr.parts, Node.Leaps]
      | stmt s =>
        cases s <;> grind [Node.below, outsideLoops, Node.parts, Stmt.parts, Node.Leaps, armParts,
          Stmt.Leaps]

theorem any_isJump_iff (n : Node) : (n.walk outsideLoops).any isJump = true ↔ n.Leaps := by
  induction n using Node.induct with
  | inherit n ih =>
    cases hm : n.isMissing with
    | true =>
      rw [Node.walk_missing hm]
      refine iff_of_false nofun fun h => ?_
      cases n with
      | program => cases hm
      | expr => exact h
      | stmt s => cases h <;> cases hm
    | false =>
      rw [leaps_iff, Node.walk_eq hm, any_cons, Bool.or_eq_true, any_flatMap,
        any_eq_true]
      exact or_congr_right (exists_congr fun m => and_congr_right fun hm =>
        ih m (Node.mem_parts_of_mem_below hm))

/-- **Lowering finds the leaps in the arms of a switch.** -/
theorem hasLoopJump_iff (arms : List Arm) :
    hasLoopJump arms = true ↔ ∃ a ∈ arms, ∃ s ∈ a.body, s.Leaps := by
  rw [hasLoopJump, any_eq_true]
  exact exists_congr fun a => and_congr_right fun _ => any_isJump_iff (.program a.body)

/-! ### Laws of bodies -/

/-- A property that bodies have by the way in which they are made. -/
structure BodyLaw (P : List Script.Stmt → Prop) (limit : Nat) : Prop where
  nil : P []
  append : ∀ code rest, P code → P rest → P (code ++ rest)
  plain : ∀ s, s.isPlain = true → P [s]
  loop : ∀ n s rest, s.loopBody? = some (.guard n limit :: rest) → P [.counter n, s]
  native : ∀ subject cases, (∀ c ∈ cases, ∀ s ∈ c.body, ¬s.Leaps) → P [.switch subject cases]

/-- Code that has a property throughout, and that leaps only under a condition. -/
structure Lawful (P : List Script.Stmt → Prop) (leaps : Prop) (code : List Script.Stmt) : Prop where
  self : P code
  inside : ∀ s ∈ code, s.Throughout P
  leap : ∀ s ∈ code, s.Leaps → leaps

/-- The same of what follows a block of a choice. -/
structure LawfulElse (P : List Script.Stmt → Prop) (leaps : Prop) (o : Script.Otherwise) :
    Prop where
  inside : o.Throughout P
  leap : ∀ body ∈ o.bodies, ∀ s ∈ body, s.Leaps → leaps

section Lawful

variable {env : Context} {P : List Script.Stmt → Prop} {limit : Nat} {J J' : Prop}
  {code rest : List Script.Stmt} {value : Script.Expr}

theorem Lawful.mono (h : Lawful P J code) (hJ : J → J') : Lawful P J' code where
  self := h.self
  inside := h.inside
  leap s hs hleap := hJ (h.leap s hs hleap)

theorem LawfulElse.mono {o : Script.Otherwise} (h : LawfulElse P J o) (hJ : J → J') :
    LawfulElse P J' o where
  inside := h.inside
  leap body hbody s hs hleap := hJ (h.leap body hbody s hs hleap)

theorem Lawful.body (h : Lawful P J code) : P code ∧ Script.ThroughoutStmts P code :=
  ⟨h.self, Script.throughoutStmts_iff.2 h.inside⟩

theorem Lawful.block (h : Lawful P J code) : LawfulElse P J (.block code) where
  inside := h.body
  leap := forall_mem_singleton.2 h.leap

theorem LawfulElse.elseIf {cond : Script.Expr} {o : Script.Otherwise} (hcond : cond.Throughout P)
    (hyes : Lawful P J code) (ho : LawfulElse P J o) : LawfulElse P J (.elseIf cond code o) where
  inside := ⟨hcond, hyes.body, ho.inside⟩
  leap := forall_mem_cons.2 ⟨hyes.leap, ho.leap⟩

theorem IsDeclaration.plain {s : Script.Stmt} (h : IsDeclaration value s) :
    s.isPlain = true ∧ (value.Throughout P → s.Throughout P) ∧ ¬s.Leaps := by
  cases s with
  | assign target op v =>
    cases target with
    | name n =>
      cases h
      exact ⟨rfl, fun hv => ⟨trivial, hv⟩, nofun⟩
    | _ => cases h
  | bind | bindTuple | assignTuple | restore =>
    cases h
    exact ⟨rfl, id, nofun⟩
  | bindAll | store | series | record | accessor | shim => exact ⟨rfl, fun _ => trivial, nofun⟩
  | _ => cases h

section Choices

variable {tail : Bool} {arms : List Arm} {last : Option (List Script.Stmt)}

/-- The leaps in the bodies of arms. -/
abbrev armLeaps (arms : List Arm) : Prop := ∃ a ∈ arms, ∃ s ∈ a.body, s.Leaps

/-- The code of a block leaps only if the block does. -/
abbrev LawfulBlock (P : List Script.Stmt → Prop) (ss : List Stmt) : List Script.Stmt → Prop :=
  Lawful P (∃ s ∈ ss, s.Leaps)

theorem lawfulElse_otherwise (hlast : LastOf (LawfulBlock P) arms last) :
    {branches : List (Script.Expr × List Script.Stmt)} →
    BranchesOf (·.Throughout P) (LawfulBlock P) arms branches →
    LawfulElse P (armLeaps arms) (otherwise last branches)
  | [], _ => by
    cases last with
    | none => exact ⟨trivial, nofun⟩
    | some body =>
      obtain ⟨a, ha, hbody⟩ := hlast.1 body rfl
      exact (hbody.mono fun hleap => ⟨a, ha, hleap⟩).block
  | (cond, body) :: rest, h => by
    obtain ⟨⟨hcond, a, ha, hbody⟩, hrest⟩ := forall_mem_cons.1 h
    exact .elseIf hcond (hbody.mono fun hleap => ⟨a, ha, hleap⟩) (lawfulElse_otherwise hlast hrest)

theorem lawful_cases {cases : List Script.Case}
    (h : CasesOf (·.Throughout P) (LawfulBlock P) arms cases) :
    Script.ThroughoutCases P cases ∧ ∀ c ∈ cases, ∀ s ∈ c.body, s.Leaps → armLeaps arms := by
  have hlater {a : Arm} {arms : List Arm} {cases : List Script.Case}
      (ih : ∀ c ∈ cases, ∀ s ∈ c.body, s.Leaps → armLeaps arms) :
      ∀ c ∈ cases, ∀ s ∈ c.body, s.Leaps → armLeaps (a :: arms) := fun c hc s hs hleap =>
    let ⟨b, hb, h⟩ := ih c hc s hs hleap
    ⟨b, .tail _ hb, h⟩
  induction h with
  | nil => exact ⟨trivial, nofun⟩
  | default hb _ ih =>
    exact ⟨⟨hb.body, ih.1⟩, forall_mem_cons.2
      ⟨fun s hs hleap => ⟨_, .head _, hb.leap s hs hleap⟩, hlater ih.2⟩⟩
  | test _ ht hb _ ih =>
    exact ⟨⟨ht, hb.body, ih.1⟩, forall_mem_cons.2
      ⟨fun s hs hleap => ⟨_, .head _, hb.leap s hs hleap⟩, hlater ih.2⟩⟩

end Choices

namespace BodyLaw

variable (law : BodyLaw P limit)

include law

theorem lawful_nil : Lawful P J [] := ⟨law.nil, nofun, nofun⟩

theorem lawful_append (h : Lawful P J code) (h' : Lawful P J rest) : Lawful P J (code ++ rest) where
  self := law.append code rest h.self h'.self
  inside := forall_mem_append.2 ⟨h.inside, h'.inside⟩
  leap := forall_mem_append.2 ⟨h.leap, h'.leap⟩

theorem lawful_singleton {s : Script.Stmt} (hplain : s.isPlain = true) (hs : s.Throughout P)
    (hleap : s.Leaps → J) : Lawful P J [s] where
  self := law.plain s hplain
  inside := forall_mem_singleton.2 hs
  leap := forall_mem_singleton.2 hleap

theorem lawful_cons {s : Script.Stmt} (hplain : s.isPlain = true) (hs : s.Throughout P)
    (hleap : s.Leaps → J) (h : Lawful P J code) : Lawful P J (s :: code) :=
  law.lawful_append (law.lawful_singleton hplain hs hleap) h

theorem lawful_declares (hvalue : value.Throughout P) (h : Declares value code) :
    Lawful P J code := by
  induction code with
  | nil => exact law.lawful_nil
  | cons s code ih =>
    obtain ⟨hs, hcode⟩ := forall_mem_cons.1 h
    obtain ⟨hplain, hinside, hleap⟩ := hs.plain (P := P)
    exact law.lawful_cons hplain (hinside hvalue) (fun h => absurd h hleap) (ih hcode)

theorem lawful_ret (hvalue : value.Throughout P) (tail : Bool) :
    Lawful P J (if tail then [.ret value] else []) := by
  split
  · exact law.lawful_singleton rfl hvalue nofun
  · exact law.lawful_nil

/-- A block with a value keeps its leaps. -/
theorem throughout_valueBlock (total : Bool) (h : Lawful P J code) :
    (valueBlock total code).Throughout P := by
  have hret : Lawful P J (if total then [] else [.ret .nan]) := by
    split
    · exact law.lawful_nil
    · exact law.lawful_singleton rfl trivial nofun
  exact (law.lawful_append h hret).body

/-- A loop keeps its leaps. -/
theorem lawful_looped (h : Looped limit (·.Throughout P) (Lawful P J') code) : Lawful P J code := by
  obtain @⟨n, s, series, rest, hseries, hrest, hheader, hbody⟩ := h
  have hundefined : Script.Expr.undefined.Throughout P := trivial
  have hall : Lawful P J' (.guard n limit :: (series ++ rest)) :=
    law.lawful_cons rfl trivial (by rintro ⟨⟩)
      (law.lawful_append (law.lawful_declares hundefined hseries) hrest)
  have hs : s.Throughout P := Script.Stmt.throughout_of_loopBody? hbody hheader hall.body
  refine ⟨law.loop n s _ hbody, by simp [hs, Script.Stmt.Throughout], ?_⟩
  refine forall_mem_cons.2 ⟨by rintro ⟨⟩, forall_mem_singleton.2 fun hleap => ?_⟩
  cases hleap <;> cases hbody

/-! ### Choices -/

theorem lawful_ifElse {cond : Script.Expr} {o : Script.Otherwise} (hcond : cond.Throughout P)
    (hyes : Lawful P J code) (ho : LawfulElse P J o) : Lawful P J [.ifElse cond code o] := by
  refine law.lawful_singleton rfl ⟨hcond, hyes.body, ho.inside⟩ fun h => ?_
  cases h with
  | yes hs h => exact hyes.leap _ hs h
  | otherwise hbody hs h => exact ho.leap _ hbody _ hs h

theorem lawful_chain {arms : List Arm} {branches : List (Script.Expr × List Script.Stmt)}
    {last : Option (List Script.Stmt)}
    (h : BranchesOf (·.Throughout P) (LawfulBlock P) arms branches)
    (hlast : LastOf (LawfulBlock P) arms last) : Lawful P (armLeaps arms) (chain branches last) := by
  unfold chain
  split
  · exact law.lawful_nil
  · next body =>
    obtain ⟨a, ha, hbody⟩ := hlast.1 body rfl
    refine law.lawful_singleton rfl hbody.body fun h => ?_
    cases h with
    | block hs h => exact ⟨a, ha, hbody.leap _ hs h⟩
  · obtain ⟨⟨hcond, a, ha, hbody⟩, hrest⟩ := forall_mem_cons.1 h
    exact law.lawful_ifElse hcond (hbody.mono fun hleap => ⟨a, ha, hleap⟩)
      (lawfulElse_otherwise hlast hrest)

/-- **A native switch** leaps only if one of its arms does, and catches no leap. -/
theorem lawful_native {arms : List Arm} {cases : List Script.Case} (hvalue : value.Throughout P)
    (hjumps : hasLoopJump arms = false)
    (h : CasesOf (·.Throughout P) (LawfulBlock P) arms cases) :
    Lawful P J [.switch value cases] := by
  obtain ⟨hinside, hleaps⟩ := lawful_cases h
  have hquiet : ∀ c ∈ cases, ∀ s ∈ c.body, ¬s.Leaps := fun c hmem s hs h =>
    Bool.false_ne_true (hjumps ▸ (hasLoopJump_iff arms).2 (hleaps c hmem s hs h))
  refine ⟨law.native _ _ hquiet, forall_mem_singleton.2 ⟨hvalue, hinside⟩,
    forall_mem_singleton.2 fun h => ?_⟩
  cases h with
  | case hmem hs h => exact absurd h (hquiet _ hmem _ hs)

end BodyLaw

end Lawful

/-! ### Trees -/

section Trees

variable {env : Context} {P : List Script.Stmt → Prop}

theorem undefined_throughout : Script.Expr.undefined.Throughout P := trivial

theorem exprClosed_throughout : ExprClosed (Script.Expr.Throughout P) where
  atom _ := trivial
  ctx := trivial
  member _ _ h := h
  series _ _ h := h
  input _ _ h := h
  plot _ _ h := h
  object named h := by
    change Script.ThroughoutProperties P _
    induction named with
    | nil => trivial
    | cons p named ih =>
      exact ⟨h p (mem_cons_self ..), ih fun q hq => h q (mem_cons_of_mem _ hq)⟩
  call _ hcallee _ hargs := ⟨hcallee, Script.throughoutExprs_iff.2 hargs⟩
  function _ _ hargs := ⟨trivial, Script.throughoutExprs_iff.2 hargs⟩
  literal _ := trivial
  unary _ _ h := h
  binary _ _ _ hl hr := ⟨hl, hr⟩
  ternary _ _ _ hc hy hn := ⟨hc, hy, hn⟩
  paren _ h := h
  array _ h := Script.throughoutExprs_iff.2 h

namespace BodyLaw

variable (law : BodyLaw P env.loopLimit)

include law

/-- **Trees are lowered to code that follows the law**, and that leaps only where they do. -/
theorem treeLogic : TreeLogic (T := Unit) env True (fun _ => True) (fun _ => True) (fun _ => Gives)
    (fun _ e => e.Throughout P) (fun _ _ => LawfulBlock P)
    (fun _ _ ss => LawfulElse P (∃ s ∈ ss, s.Leaps))
    (fun _ _ ss step => Gives step (LawfulBlock P ss)) where
  parts _ _ _ _ := trivial
  choice _ _ := trivial
  blocks _ _ _ _ := trivial
  later _ := trivial
  steps _ := stepLogic_keeps _
  closed _ := exprClosed_throughout
  name _ _ := trivial
  warned _ _ _ _ _ := gives_any _
  history _ ho := keeps_pure ho
  value := law.throughout_valueBlock _
  bind := Keeps.bind
  failed _ _ _ _ := keeps_fail
  scope hs hQ := Gives.inScope ((hs ()).bind fun _ h => keeps_pure (hQ _ h))
  nil := keeps_pure law.lawful_nil
  cons _ _ hs hss := hs.bind fun _ h => (hss ()).bind fun _ h' => keeps_pure (law.lawful_append
    (h.mono fun ⟨s, hs, hleap⟩ => ⟨s, mem_singleton.1 hs ▸ .head _, hleap⟩)
    (h'.mono fun ⟨s, hs, hleap⟩ => ⟨s, .tail _ hs, hleap⟩))
  decl {_ tail _ _ name names _ _ _ _} _ hv := by
    have hret : (declaredValue name names).Throughout P := by
      unfold declaredValue
      split
      · trivial
      · exact exprClosed_throughout.array _ (forall_mem_map.2 fun _ _ => trivial)
    exact (gives_declStmts _ _ name names _).bind fun _ hcode =>
      keeps_pure (law.lawful_append (law.lawful_declares hv hcode) (law.lawful_ret hret tail))
  assign {_ tail _ _ n _ _ _} hv := by
    have hname : (Script.Expr.name (Script.safeName n)).Throughout P := trivial
    exact (gives_afterAssign n).bind fun _ hcode => keeps_pure (law.lawful_append
      (law.lawful_declares hv (.cons rfl hcode)) (law.lawful_ret hname tail))
  assignMember htarget _ hv := htarget.bind fun _ ht =>
    keeps_pure (law.lawful_singleton rfl ⟨ht, hv⟩ nofun)
  func {_ _ _ name params stmts isMethod _} hs := by
    refine Keeps.bind (P := LawfulBlock P stmts) (Gives.inScope ?_) fun code hcode => keeps_pure ?_
    · exact gives_after fun _ => (gives_afterDeclareAll _).bind fun _ hfirst =>
        (hs ()).bind fun _ hrest => keeps_pure
          (law.lawful_append (law.lawful_declares undefined_throughout hfirst) hrest)
    · exact law.lawful_cons rfl hcode.body nofun
        (law.lawful_declares undefined_throughout (declares_shims name params isMethod))
  ifElse hc hyes hno := keeps_pure (law.lawful_ifElse hc
    (hyes.mono fun ⟨_, hs, hleap⟩ => ⟨_, .head _, .yes hs hleap⟩)
    (hno.mono fun ⟨_, hs, hleap⟩ => ⟨_, .head _, .no hs hleap⟩))
  loop _ hloop hs := (gives_loopStmts hloop (hs ())).mono fun _ => law.lawful_looped
  retVoid _ := keeps_pure (law.lawful_singleton rfl trivial nofun)
  ret _ hv := keeps_pure (law.lawful_singleton rfl hv nofun)
  brk {_ _ p} := keeps_pure (law.lawful_singleton rfl trivial fun _ => ⟨_, .head _, .brk p⟩)
  cont {_ _ p} := keeps_pure (law.lawful_singleton rfl trivial fun _ => ⟨_, .head _, .cont p⟩)
  choices hb hl := keeps_pure ((law.lawful_chain hb hl).mono
    fun ⟨_, ha, _, hs, hleap⟩ => ⟨_, .head _, .arm ha hs hleap⟩)
  subject hv hbranches hlast := gives_after fun n => (hbranches () n).bind fun _ hb =>
    (hlast ()).bind fun _ hl => keeps_pure (law.lawful_cons rfl hv nofun
      ((law.lawful_chain hb hl).mono fun ⟨_, ha, _, hs, hleap⟩ => ⟨_, .head _, .arm ha hs hleap⟩))
  native hv hjumps hcases := keeps_pure (law.lawful_native hv hjumps hcases)
  typeDecl {_ _ _ _ fields} hfields := by
    have hslots : Gives (slots env fields) (Script.ThroughoutSlots P) :=
      keeps_slots (stepLogic_keeps _) (P := (·.Throughout P)) trivial trivial
        (fun _ _ _ _ hi hs => ⟨hi, hs⟩) hfields
    exact hslots.bind fun _ hs => keeps_pure (law.lawful_singleton rfl hs nofun)
  importLib _ := gives_after fun _ => gives_after fun _ =>
    keeps_pure (law.lawful_singleton rfl trivial nofun)
  exported h := h.mono fun _ hcode => hcode.mono fun ⟨_, hs, hleap⟩ =>
    ⟨_, .head _, .exported (mem_singleton.1 hs ▸ hleap)⟩
  silent _ := keeps_pure law.lawful_nil
  exprStmt {_ tail _ _ _} _ hv := by
    cases tail <;> exact keeps_pure (law.lawful_singleton rfl hv nofun)
  nothing := ⟨trivial, nofun⟩
  block h := h.block
  elseIf hc hyes hno := .elseIf hc
    (hyes.mono fun ⟨_, hs, hleap⟩ => ⟨_, .head _, .yes hs hleap⟩)
    (hno.mono fun ⟨_, hs, hleap⟩ => ⟨_, .head _, .no hs hleap⟩)

/-! ### Programs -/

theorem gives_sourceStmts : (names : List String) →
    Gives (sourceStmts env names) (Lawful P False)
  | [] => keeps_pure law.lawful_nil
  | name :: names => gives_after fun _ => (gives_afterDeclare name).bind fun _ hseries =>
    (gives_sourceStmts names).bind fun _ hrest => keeps_pure (law.lawful_cons rfl trivial nofun
      (law.lawful_append (law.lawful_declares undefined_throughout hseries) hrest))

theorem gives_historyStmts : (names : List String) →
    Gives (historyStmts env names) (Lawful P False)
  | [] => keeps_pure law.lawful_nil
  | name :: names => gives_after fun _ => (gives_afterDeclare name).bind fun _ hseries =>
    (gives_historyStmts names).bind fun _ hrest => keeps_pure
      (law.lawful_append (law.lawful_declares undefined_throughout hseries) hrest)

theorem gives_cellStmts : (cells : List (Program.Persistent × String)) →
    Gives (cellStmts cells) (Lawful P False)
  | [] => keeps_pure law.lawful_nil
  | (_, _) :: cells => gives_after fun _ => (gives_cellStmts cells).bind fun _ hrest =>
    keeps_pure (law.lawful_cons rfl trivial nofun (law.lawful_cons rfl trivial nofun hrest))

theorem gives_steps (program : Program) :
    Gives (program.steps env) (Lawful P (∃ s ∈ program, s.Leaps)) := by
  have hprologue : Gives (prologue env program) (Lawful P False) :=
    (law.gives_sourceStmts _).bind fun _ h₁ => (law.gives_historyStmts _).bind fun _ h₂ =>
      (law.gives_cellStmts _).bind fun _ h₃ => keeps_pure
        (law.lawful_append (law.lawful_append h₁ h₂) h₃)
  exact hprologue.bind fun _ hfirst =>
    (law.treeLogic.body (fun s _ => law.treeLogic.node (.stmt s) trivial) trivial (.inl trivial)
      () false).bind fun _ hrest =>
        keeps_pure (law.lawful_append (hfirst.mono False.elim) hrest)

end BodyLaw

end Trees

end Lowering

/-- **What follows a law of bodies holds throughout the script of a program.** -/
theorem Program.throughout_lower {P : List Script.Stmt → Prop} {program : Program}
    {options : Lowering.Options} {indicator : Indicator} {d d' : Diagnostics} {script : Script}
    (law : Lowering.BodyLaw P (program.context options indicator).loopLimit)
    (h : program.lower options indicator d = (.ok script, d')) : script.Throughout P := by
  obtain ⟨s, hs⟩ := exists_steps_of_lower h
  exact (law.gives_steps program _ trivial _ _ hs).1.body

/-! ### Native switches -/

namespace Lowering

/-- No switch of a body catches a leap. -/
def CatchesNothing (body : List Script.Stmt) : Prop :=
  ∀ subject cases, .switch subject cases ∈ body → ∀ c ∈ cases, ∀ s ∈ c.body, ¬s.Leaps

theorem bodyLaw_catchesNothing (limit : Nat) : BodyLaw CatchesNothing limit where
  nil := nofun
  append _ _ h h' subject cases hmem :=
    (mem_append.1 hmem).elim (h subject cases) (h' subject cases)
  plain s hs subject cases hmem := by
    cases mem_singleton.1 hmem
    cases hs
  loop n s rest hs subject cases hmem := by
    obtain hmem | hmem := mem_cons.1 hmem
    · cases hmem
    · cases mem_singleton.1 hmem
      cases hs
  native subject cases h _ _ hmem := by
    cases mem_singleton.1 hmem
    exact h

theorem not_mem_chain {branches : List (Script.Expr × List Script.Stmt)}
    {last : Option (List Script.Stmt)} {subject : Script.Expr} {cases : List Script.Case} :
    .switch subject cases ∉ chain branches last := by
  unfold chain
  split <;> simp

/-- Whether a switch is among statements. -/
def HasSwitch (code : List Script.Stmt) : Prop := ∃ value cases, .switch value cases ∈ code

/-- A switch is native if it has a subject and none of its arms leaps. -/
theorem gives_native (env : Context) (tail : Bool) (p : Pos) (subject : Expr) (arms : List Arm) :
    Gives (stmt env tail (.switch p subject arms)) fun code =>
      HasSwitch code ↔ subject.isMissing = false ∧ ∀ a ∈ arms, ∀ s ∈ a.body, ¬s.Leaps := by
  have hleaps := hasLoopJump_iff arms
  rw [stmt]
  unfold switchStmts
  split
  · next hm =>
    refine gives_after fun _ => gives_after fun _ => keeps_pure (iff_of_false ?_ (by simp [hm]))
    rintro ⟨_, _, hmem⟩
    exact not_mem_chain hmem
  · next hm =>
    split
    · next hjumps =>
      obtain ⟨a, ha, s, hs, hleap⟩ := hleaps.1 hjumps
      refine gives_after fun _ => gives_after fun _ => gives_after fun _ => gives_after fun _ =>
        keeps_pure (iff_of_false ?_ fun h => h.2 a ha s hs hleap)
      rintro ⟨_, _, hmem⟩
      exact not_mem_chain ((mem_cons.1 hmem).resolve_left nofun)
    · next hjumps =>
      refine gives_after fun value => gives_after fun cases => keeps_pure (iff_of_true
        ⟨value, cases, .head _⟩ ⟨by simpa using hm, fun a ha s hs hleap => ?_⟩)
      exact hjumps (hleaps.2 ⟨a, ha, s, hs, hleap⟩)

theorem gives_nativeBlock (env : Context) (bare : Bool) (p : Pos) (subject : Expr)
    (arms : List Arm) :
    Gives (expr env bare (.switch p subject arms)) fun e => ∃ code, e = .block code ∧
      (HasSwitch code ↔ subject.isMissing = false ∧ ∀ a ∈ arms, ∀ s ∈ a.body, ¬s.Leaps) := by
  rw [expr_choice bare rfl]
  refine Gives.inScope ((gives_native env true p subject arms).bind fun code hcode =>
    keeps_pure ⟨_, rfl, ?_⟩)
  rw [← hcode]
  split <;> simp [HasSwitch]

end Lowering

/-- **A native switch catches no jump.** A `switch` becomes a native one, as a statement or in the
block that has its value, exactly if it has a subject and its arms hold no `break` or `continue`
outside of the loops, functions and choices with a value in them. And in no script does a case of a
native switch leave or continue a loop around the switch. -/
theorem Program.native_switch_catches_nothing :
    (∀ env tail p subject arms s code s',
      Lowering.stmt env tail (.switch p subject arms) s = .ok code s' →
      (Lowering.HasSwitch code ↔
        subject.isMissing = false ∧ ∀ a ∈ arms, ∀ t ∈ a.body, ¬t.Leaps)) ∧
    (∀ env bare p subject arms s e s',
      Lowering.expr env bare (.switch p subject arms) s = .ok e s' →
      ∃ code, e = .block code ∧ (Lowering.HasSwitch code ↔
        subject.isMissing = false ∧ ∀ a ∈ arms, ∀ t ∈ a.body, ¬t.Leaps)) ∧
    ∀ (program : Program) options indicator d script d',
      program.lower options indicator d = (.ok script, d') →
      script.Throughout Lowering.CatchesNothing := by
  refine ⟨fun env tail p subject arms s code s' h => ?_,
    fun env bare p subject arms s e s' h => ?_, fun program options indicator d script d' h => ?_⟩
  · exact (Lowering.gives_native env tail p subject arms s trivial code s' h).1
  · exact (Lowering.gives_nativeBlock env bare p subject arms s trivial e s' h).1
  · exact throughout_lower (Lowering.bodyLaw_catchesNothing _) h

/-- A switch with an arm that leaves a loop in the arm. -/
def Stmt.switchAroundLoop : Stmt :=
  .switch ⟨1, 1⟩ (.name ⟨1, 8⟩ "a")
    [.mk (.number ⟨2, 5⟩ "1") [.whileLoop ⟨3, 9⟩ (.name ⟨3, 15⟩ "b") [.brk ⟨4, 13⟩]]]

/-- A switch with an arm that leaves a loop around the switch. -/
def Expr.switchInLoop : Expr :=
  .switch ⟨1, 1⟩ (.name ⟨1, 8⟩ "a")
    [.mk (.number ⟨2, 5⟩ "1") [.ifElse ⟨3, 9⟩ (.name ⟨3, 12⟩ "b") [.brk ⟨4, 13⟩] []]]

theorem Program.native_switch_catches_nothing_nested :
    let env := Program.context [] {} {}
    (∃ code s, Lowering.stmt env false Stmt.switchAroundLoop {} = .ok code s ∧
      Lowering.HasSwitch code) ∧
    (∃ code s, Lowering.expr env true Expr.switchInLoop {} = .ok (.block code) s ∧
      ¬Lowering.HasSwitch code) ∧
    ∃ script d, Program.lower [.switchAroundLoop, .expr ⟨5, 1⟩ .switchInLoop] {} {} {} =
      (.ok script, d) ∧ script.Throughout Lowering.CatchesNothing := by
  intro env
  obtain ⟨hstmt, hexpr, hlower⟩ := Program.native_switch_catches_nothing
  refine ⟨?_, ?_, ?_⟩
  · obtain ⟨code, s, hrun⟩ : ∃ code s, Lowering.stmt env false Stmt.switchAroundLoop {} =
        .ok code s := ⟨_, _, rfl⟩
    refine ⟨code, s, hrun, (hstmt _ _ _ _ _ _ _ _ hrun).2 ⟨rfl, ?_⟩⟩
    simp only [forall_mem_singleton, Arm.body]
    rintro ⟨⟩
  · obtain ⟨e, s, hrun⟩ : ∃ e s, Lowering.expr env true Expr.switchInLoop {} = .ok e s :=
      ⟨_, _, rfl⟩
    obtain ⟨code, rfl, hiff⟩ := hexpr _ _ _ _ _ _ _ _ hrun
    refine ⟨code, s, hrun, fun h => ?_⟩
    exact (hiff.1 h).2 _ (.head _) _ (.head _) (.yes (.head _) (.brk _))
  · have hok : (Program.lower [.switchAroundLoop, .expr ⟨5, 1⟩ .switchInLoop] {} {} {}).1.toBool =
        true := by with_unfolding_all decide
    generalize hrun : Program.lower _ _ _ _ = run at hok ⊢
    obtain ⟨_ | script, d⟩ := run
    · cases hok
    · exact ⟨script, d, rfl, hlower _ _ _ _ _ _ hrun⟩

end Pine
