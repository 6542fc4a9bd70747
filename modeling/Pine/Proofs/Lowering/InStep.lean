import Pine.Lowering.Program
import Pine.Proofs.Indicator.History
import Pine.Proofs.Lowering.Bindings
import Pine.Proofs.Lowering.Trees

/-!
# Lowering keeps scripts in step

The script of a program is in step: cells and series follow the variables of the program, and no
history is read of a variable that has no series. This rests on the description of the program,
which knows every name whose history is read anywhere. A declaration of such a name makes its
series at once, so that whatever is lowered later finds it; a library that is imported under such a
name has no series and is the one exception.
-/

namespace Pine

open Lower List
open Script (Vars stmtsInStep exprsInStep safeName)

namespace Lowering

variable {env : Context} {t : Vars} {α β : Type}

/-! ### Steps -/

/-- A step whose result has a property and that leaves the variables as they are. -/
def Steady (env : Context) (t : Vars) (step : Lower α) (P : α → Prop) : Prop :=
  Keeps (fun s => t.Tracks env.indicator.history [] s.scopes) step P

/-- A step that can bind names, but only in the innermost scope. -/
def Inside (env : Context) (t : Vars) (step : Lower α) (P : α → Prop) : Prop :=
  ∀ s, t.Tracks env.indicator.history [] s.scopes →
    Ensures step s fun a s' => P a ∧ ∃ u : Vars, u.outer = t.outer ∧
      u.Tracks env.indicator.history [] s'.scopes

/-- A step that gives statements in step, and binds names as they do. -/
def Emits (env : Context) (t : Vars) (step : Lower (List Script.Stmt)) : Prop :=
  ∀ s, t.Tracks env.indicator.history [] s.scopes →
    Ensures step s fun code s' => stmtsInStep t code ∧
      (t.afterAll code).Tracks env.indicator.history [] s'.scopes

section

variable {step : Lower α} {next : α → Lower β} {P : α → Prop} {Q : β → Prop}

theorem steady_of_scopes (h : ∀ s, Ensures step s fun _ s' => s'.scopes = s.scopes) :
    Steady env t step fun _ => True := by
  refine fun s hs => (h s).mono fun _ s' hscopes => ⟨trivial, ?_⟩
  change t.Tracks _ [] s'.scopes
  rwa [hscopes]

theorem Inside.map (h : Inside env t step P) {f : α → β} (hf : ∀ a, P a → Q (f a)) :
    Inside env t (do return f (← step)) Q :=
  fun s hs => (h s hs).bind fun a _ ha => ensures_pure ⟨hf a ha.1, ha.2⟩

/-- What is bound in a scope of its own is gone after it. -/
theorem Inside.inScope (h : Inside env (t.enter []) step P) : Steady env t (inScope step) P := by
  refine fun s hs => Ensures.inScope ((h _ hs.enter).mono ?_)
  rintro a s' ⟨ha, u, hu, hs'⟩
  exact ⟨ha, hs'.leave hu⟩

theorem Emits.inside {step : Lower (List Script.Stmt)} (h : Emits env t step) :
    Inside env t step (stmtsInStep t) :=
  fun s hs => (h s hs).mono fun code _ hcode =>
    ⟨hcode.1, t.afterAll code, Vars.outer_afterAll code, hcode.2⟩

theorem Steady.bind_emits {next : α → Lower (List Script.Stmt)} (h : Steady env t step P)
    (h' : ∀ a, P a → Emits env t (next a)) : Emits env t (step >>= next) :=
  fun s hs => (h s hs).bind fun a s' ha => h' a ha.1 s' ha.2

theorem Emits.append {first rest : Lower (List Script.Stmt)} (h : Emits env t first)
    (h' : ∀ u, Emits env u rest) : Emits env t (do return (← first) ++ (← rest)) := by
  refine fun s hs => (h s hs).bind fun code s₁ hcode => ?_
  refine (h' _ s₁ hcode.2).bind fun code' s₂ hcode' => ensures_pure ?_
  refine ⟨Script.stmtsInStep_append hcode.1 hcode'.1, ?_⟩
  rw [Vars.afterAll_append]
  exact hcode'.2

end

theorem steady_freshLoop : Steady env t freshLoop fun _ => True :=
  steady_of_scopes fun _ => ensures_get (ensures_modify (ensures_pure rfl))

theorem steady_freshSwitch : Steady env t freshSwitch fun _ => True :=
  steady_of_scopes fun _ => ensures_get (ensures_modify (ensures_pure rfl))

theorem steady_seriesKey (name : String) : Steady env t (seriesKey name) fun _ => True :=
  steady_of_scopes fun _ => ensures_get (ensures_modify (ensures_pure rfl))

theorem steady_warn (severity : Severity) (feature : String) (line : Int) (message : String) :
    Steady env t (warn severity feature line message) fun _ => True := by
  refine steady_of_scopes fun s => (ensures_warn severity feature line message).mono ?_
  rintro _ _ ⟨_, rfl⟩
  rfl

/-- A statement that is in step by itself and binds no name. -/
def Still (t : Vars) (s : Script.Stmt) : Prop := s.InStep t ∧ s.owed t = [] ∧ t.after s = t

theorem stmtsInStep_of_still {code : List Script.Stmt} (h : ∀ s ∈ code, Still t s) :
    stmtsInStep t code ∧ t.afterAll code = t := by
  induction code with
  | nil => exact ⟨trivial, rfl⟩
  | cons s code ih =>
    obtain ⟨hs, howed, hafter⟩ := h s (mem_cons_self ..)
    obtain ⟨hcode, hall⟩ := ih fun s' hs' => h s' (mem_cons_of_mem _ hs')
    rw [Vars.afterAll_cons, stmtsInStep, hafter, howed]
    exact ⟨⟨hs, forall_mem_nil _, hcode⟩, hall⟩

theorem emits_pure {code : List Script.Stmt} (h : ∀ s ∈ code, Still t s) :
    Emits env t (pure code) := by
  obtain ⟨hcode, hall⟩ := stmtsInStep_of_still h
  exact fun s hs => ensures_pure ⟨hcode, by rwa [hall]⟩

/-- A statement that returns can follow. -/
theorem Emits.append_still {step : Lower (List Script.Stmt)} (h : Emits env t step)
    {rest : List Script.Stmt} (hrest : ∀ u, ∀ s ∈ rest, Still u s) :
    Emits env t (do return (← step) ++ rest) :=
  h.append fun u => emits_pure (hrest u)

/-! ### Declarations and assignments -/

section Declarations

variable {s : State} {value : Script.Expr}

/-- A write with the bookkeeping that it needs. -/
theorem stmtsInStep_write {write : Script.Stmt} {code : List Script.Stmt} {history : List String}
    {pending : List String} {scopes : Scopes} (hwrite : write.InStep t)
    (hcode : Books history pending (t.after write) code scopes) (howed : write.owed t ⊆ code) :
    stmtsInStep t (write :: code) := by
  refine ⟨hwrite, fun d hd => ?_, hcode.inStep⟩
  rw [Script.bookkeeping_of_forall hcode.isBookkeeping]
  exact howed hd

/-- An assignment to a variable, with the stores that follow. -/
theorem ensures_assigned (hs : t.Tracks env.indicator.history [] s.scopes)
    (hvalue : value.InStep t) (name : String) (op : AssignOp) :
    Ensures (afterAssign name) s fun code s' =>
      stmtsInStep t (.assign (.name (safeName name)) op value :: code) ∧
        (t.afterAll (.assign (.name (safeName name)) op value :: code)).Tracks
          env.indicator.history [] s'.scopes := by
  refine (ensures_afterAssign_books hs name).mono fun code s' hcode => ⟨?_, hcode.2.tracks⟩
  refine stmtsInStep_write ⟨trivial, hvalue⟩ hcode.2 ?_
  rw [hcode.1]
  simp [Script.Stmt.owed, Script.Stmt.writes, Script.Vars.after]

/-- Nothing is kept of a variable that was not bound before. -/
theorem find?_add_new {history pending : List String} {scopes : Scopes} {name : String}
    (h : t.Tracks history pending scopes) (hnew : scopes.current.find? name = none)
    (b : Script.Binding) (hb : b.name = safeName name) :
    (t.add b).find? (safeName name) = some b := by
  have hfree : t.current.find? b.name = none := by
    rw [hb, h.current.find?_safeName, hnew]
    rfl
  rw [← hb, Vars.find?_add_self, hfree, Option.getD_none]

theorem emits_plainDecl (hvalue : value.InStep t) (name : String) :
    Emits env t (plainDecl env name value) := by
  intro s hs
  refine (ensures_define name .plain).bind ?_
  rintro _ _ ⟨rfl, rfl⟩
  cases hbound : s.scopes.current.find? name with
  | some symbol =>
    rw [Scopes.define_of_bound hbound]
    exact (ensures_assigned hs hvalue name .set).bind fun _ _ hcode => ensures_pure hcode
  | none =>
    have htracks := hs.define_of_notBound hbound .plain
    have hfind := find?_add_new hs hbound { name := safeName name } rfl
    have hcurrent : ((t.add { name := safeName name }).current.find? (safeName name)).isSome := by
      rw [Vars.add, Script.Frame.find?_add_name]
      rfl
    refine (ensures_afterDeclare htracks hcurrent).bind fun code s' hcode => ensures_pure ⟨?_, ?_⟩
    · refine stmtsInStep_write hvalue hcode ?_
      simp [Script.Stmt.owed, Script.Stmt.writes, Script.Vars.after, hfind, Script.Binding.stores]
    · exact hcode.tracks

theorem emits_persistentDecl (hvalue : value.InStep t) (pos : Pos) (key : Nat) (name : String) :
    Emits env t (persistentDecl env pos key name value) := by
  intro s hs
  refine (ensures_define name .persistent).bind ?_
  rintro _ _ ⟨rfl, rfl⟩
  cases hbound : s.scopes.current.find? name with
  | some symbol =>
    rw [Scopes.define_of_bound hbound]
    exact (ensures_assigned hs hvalue name .set).bind fun _ _ hcode => ensures_pure hcode
  | none =>
    cases hcell : env.cells.lookup key with
    | none => exact ensures_fail pos (.cell name)
    | some cell =>
      have htracks := hs.define_persistent hbound cell
      have hfind := find?_add_new hs hbound { name := safeName name, cell := some cell } rfl
      have hcurrent : ((t.add { name := safeName name, cell := some cell }).current.find?
          (safeName name)).isSome := Option.isSome_iff_exists.2 ⟨_, Script.Frame.find?_add_self⟩
      refine ensures_modify ((ensures_afterDeclare htracks hcurrent).bind
        fun code s' hcode => ensures_pure ⟨?_, hcode.tracks⟩)
      refine stmtsInStep_write hvalue (hcode.store cell (safeName name)) ?_
      simp [Script.Stmt.owed, Script.Stmt.writes, Script.Vars.after, hfind, Script.Binding.stores]

/-- A declaration of several names writes them all at once. -/
theorem tupleStmts_cases (names : List String) (existed : List Bool) (value : Script.Expr) :
    ∃ front write, tupleStmts names existed value = front ++ [write] ∧
      (∀ t, ∀ s ∈ front, Still t s) ∧
      (write = .bindTuple (names.map safeName) value ∨
        write = .assignTuple (names.map safeName) value) := by
  unfold tupleStmts
  dsimp only
  split
  · refine ⟨_, _, rfl, fun t s hs => ?_, .inr rfl⟩
    split at hs
    · cases hs
    · cases mem_singleton.1 hs
      exact ⟨trivial, rfl, rfl⟩
  · exact ⟨[], _, rfl, nofun, .inl rfl⟩

/-- The bookkeeping behind a declaration of several names stores each of them: a name that was
bound before is stored by itself, and nothing is kept of the others. -/
theorem stores_subset_tuple {names : List String} {existed : List Bool} {code : List Script.Stmt}
    (hexisted : existed = t.current.known (names.map safeName))
    (hcode : ∀ x b, (x, true) ∈ names.zip existed →
      ({ t with current := t.current.addAll (names.map safeName) } : Vars).find? (safeName x) =
        some b → b.stores ⊆ code) {x : String} (hx : x ∈ names) :
    (({ t with current := t.current.addAll (names.map safeName) } : Vars).find?
      (safeName x)).elim [] Script.Binding.stores ⊆ code := by
  have hlength : names.length ≤ existed.length := by
    simp [hexisted, Script.Frame.length_known]
  rw [← map_fst_zip hlength] at hx
  obtain ⟨⟨x, e⟩, hmem, rfl⟩ := mem_map.1 hx
  cases e with
  | true =>
    cases hb : Vars.find? _ (safeName x) with
    | none => exact nil_subset _
    | some b => exact hcode x b hmem hb
  | false =>
    have hnew : (safeName x, false) ∈ (names.map safeName).zip existed := by
      rw [zip_map_left]
      exact mem_map.2 ⟨(x, false), hmem, rfl⟩
    rw [hexisted] at hnew
    rw [Vars.find?_of_current (Script.Frame.find?_addAll_of_known hnew)]
    exact nil_subset _

theorem emits_tupleDecl (hvalue : value.InStep t) (names : List String) :
    Emits env t (tupleDecl env names value) := by
  intro s hs
  refine (ensures_defineAll .plain names hs).bind fun existed s₁ hdefine => ?_
  obtain ⟨hexisted, htracks⟩ := hdefine
  rw [List.append_nil] at htracks
  have hbound : ∀ p ∈ names.zip existed,
      ((t.current.addAll (names.map safeName)).find? (safeName p.1)).isSome := fun p hp =>
    Script.Frame.isSome_addAll (mem_map_of_mem (of_mem_zip hp).1)
  refine (ensures_afterTuple _ htracks hbound).bind fun code s₂ hcode => ensures_pure ?_
  obtain ⟨hbooks, hstores⟩ := hcode
  obtain ⟨front, write, hshape, hfront, hwrite⟩ := tupleStmts_cases names existed value
  have hafter : t.after write = { t with current := t.current.addAll (names.map safeName) } := by
    obtain rfl | rfl := hwrite <;> rfl
  have howed : write.owed t ⊆ code := by
    have hkept : (names.map safeName).flatMap
        (fun n => ((t.after write).find? n).elim [] Script.Binding.stores) ⊆ code := by
      intro d hd
      obtain ⟨n, hn, hd⟩ := mem_flatMap.1 hd
      obtain ⟨x, hx, rfl⟩ := mem_map.1 hn
      rw [hafter] at hd
      exact stores_subset_tuple hexisted hstores hx hd
    obtain rfl | rfl := hwrite
    all_goals simpa [Script.Stmt.owed, Script.Stmt.writes] using hkept
  have hin : stmtsInStep t (write :: code) := by
    refine stmtsInStep_write ?_ (hafter ▸ hbooks) howed
    obtain rfl | rfl := hwrite <;> exact hvalue
  obtain ⟨hfront', hall⟩ := stmtsInStep_of_still (hfront t)
  rw [hshape, append_assoc, singleton_append]
  refine ⟨Script.stmtsInStep_append hfront' (by rwa [hall]), ?_⟩
  rw [Vars.afterAll_append, hall, Vars.afterAll_cons, hafter]
  exact hbooks.tracks

theorem emits_declStmts (hvalue : value.InStep t) (pos : Pos) (key : Nat) (name : String)
    (names : List String) (qualifier : String) :
    Emits env t (declStmts env pos key name names qualifier value) := by
  unfold declStmts
  split
  · exact emits_tupleDecl hvalue names
  · split
    · exact emits_persistentDecl hvalue pos key name
    · exact emits_plainDecl hvalue name

end Declarations

/-! ### Expressions -/

/-- A member is no variable. -/
theorem steady_member {object : Expr} (h : Steady env t (expr env false object) (·.InStep t))
    (bare : Bool) (p : Pos) (property : String) :
    Steady env t (expr env bare (.member p object property))
      fun e => e.InStep t ∧ ∀ n, e ≠ .name n := by
  refine keeps_get fun s => ?_
  split
  · next e he =>
    obtain ⟨value, rfl⟩ | ⟨text, rfl⟩ := memberExpr?_cases he
    all_goals exact keeps_pure ⟨trivial, by simp⟩
  · exact h.bind fun _ ho => keeps_pure ⟨ho, by simp⟩

/-- An expression other than a variable or a block is in step if its parts are. -/
theorem exprClosed_inStep : ExprClosed (Script.Expr.InStep t) where
  atom _ := trivial
  ctx := trivial
  member _ _ h := h
  series _ _ h := h
  input _ _ h := h
  plot _ _ h := h
  object named h := by
    change Script.propertiesInStep t _
    induction named with
    | nil => trivial
    | cons p named ih =>
      exact ⟨h p (mem_cons_self ..), ih fun q hq => h q (mem_cons_of_mem _ hq)⟩
  call _ hcallee _ hargs := ⟨hcallee, Script.exprsInStep_iff.2 hargs⟩
  function _ _ hargs := ⟨trivial, Script.exprsInStep_iff.2 hargs⟩
  literal _ := trivial
  unary _ _ h := h
  binary _ _ _ hl hr := ⟨hl, hr⟩
  ternary _ _ _ hc hy hn := ⟨hc, hy, hn⟩
  paren _ h := h
  array _ h := Script.exprsInStep_iff.2 h

/-! ### Choices and blocks -/

theorem still_ret {e : Script.Expr} (h : e.InStep t) (tail : Bool) :
    ∀ s ∈ (if tail then [Script.Stmt.ret e] else []), Still t s := by
  split
  · exact fun s hs => mem_singleton.1 hs ▸ ⟨h, rfl, rfl⟩
  · exact nofun

theorem inStep_declaredValue (name : String) (names : List String) :
    (declaredValue name names).InStep t := by
  unfold declaredValue
  split
  · trivial
  · refine Script.exprsInStep_iff.2 fun e he => ?_
    obtain ⟨n, -, rfl⟩ := mem_map.1 he
    trivial

theorem inStep_valueBlock (total : Bool) {body : List Script.Stmt}
    (h : stmtsInStep (t.enter []) body) : (valueBlock total body).InStep t := by
  refine Script.stmtsInStep_append h ?_
  cases total with
  | true => trivial
  | false => exact Script.stmtsInStep_singleton trivial rfl

section Choices

variable {arms : List Arm} {last : Option (List Script.Stmt)}

theorem inStep_otherwise (hlast : LastOf (fun _ => stmtsInStep (t.enter [])) arms last) :
    {branches : List (Script.Expr × List Script.Stmt)} →
    BranchesOf (·.InStep t) (fun _ => stmtsInStep (t.enter [])) arms branches →
    (otherwise last branches).InStep t
  | [], _ => by
    cases last with
    | none => trivial
    | some body => exact (hlast.1 body rfl).elim fun _ h => h.2
  | (cond, body) :: rest, h => by
    obtain ⟨⟨hcond, _, -, hbody⟩, hrest⟩ := forall_mem_cons.1 h
    exact ⟨hcond, hbody, inStep_otherwise hlast hrest⟩

theorem still_chain {branches : List (Script.Expr × List Script.Stmt)}
    (h : BranchesOf (·.InStep t) (fun _ => stmtsInStep (t.enter [])) arms branches)
    (hlast : LastOf (fun _ => stmtsInStep (t.enter [])) arms last) :
    ∀ s ∈ chain branches last, Still t s := by
  unfold chain
  split
  · exact nofun
  · next body =>
    obtain ⟨_, -, hbody⟩ := hlast.1 body rfl
    exact forall_mem_singleton.2 ⟨hbody, rfl, rfl⟩
  · obtain ⟨⟨hcond, _, -, hbody⟩, hrest⟩ := forall_mem_cons.1 h
    exact forall_mem_singleton.2 ⟨⟨hcond, hbody, inStep_otherwise hlast hrest⟩, rfl, rfl⟩

theorem casesInStep_of {cases : List Script.Case}
    (h : CasesOf (·.InStep t) (fun _ => stmtsInStep (t.enter [])) arms cases) :
    Script.casesInStep t cases := by
  induction h with
  | nil => trivial
  | default hb _ ih => exact ⟨hb, ih⟩
  | test _ ht hb _ ih => exact ⟨ht, hb, ih⟩

end Choices

/-- The variable with the subject of a switch is made up, and nothing is kept of it. -/
theorem owed_subject {history : List String} {scopes : Scopes}
    (h : t.Tracks history [] scopes) (n : Nat) (value : Script.Expr) :
    (Script.Stmt.const (Script.subjectName n) value).owed t = [] := by
  have hmadeUp := Script.subjectName_ne_safeName n
  have hfind := Vars.find?_of_current (t := t.add { name := Script.subjectName n })
    Script.Frame.find?_add_name
  have hstores := (h.add_madeUp hmadeUp).current.stores_madeUp _ _ hmadeUp
    Script.Frame.find?_add_name
  simp [Script.Stmt.owed, Script.Stmt.writes, Script.Vars.after, hfind, hstores]

theorem still_shims (name : String) (params : List Param) (isMethod : Bool) :
    ∀ s ∈ shims env name params isMethod, Still t s := by
  unfold shims
  repeat' split
  · exact fun s hs => mem_singleton.1 hs ▸ ⟨trivial, rfl, rfl⟩
  · exact nofun
  · exact nofun

/-- A block starts with the series of its parameters. -/
theorem stmtsInStep_start {history : List String} {front series code : List Script.Stmt}
    {scopes : Scopes} (hfront : ∀ s ∈ front, Still t s) (hseries : Books history [] t series scopes)
    (hcode : stmtsInStep (t.afterAll series) code) : stmtsInStep t (front ++ series ++ code) := by
  obtain ⟨hin, hall⟩ := stmtsInStep_of_still hfront
  refine Script.stmtsInStep_append (Script.stmtsInStep_append hin ?_) ?_
  · rw [hall]
    exact hseries.inStep
  · rwa [Vars.afterAll_append, hall]

/-- The block of a function or of a loop over a collection. -/
theorem steady_block (kind : SymbolKind) (names : List String) (front : List Script.Stmt)
    (hfront : ∀ u, ∀ s ∈ front, Still u s) {rest : Lower (List Script.Stmt)}
    (hrest : ∀ u, Emits env u rest) :
    Steady env t (inScope do
      let _ ← defineAll kind names
      let series ← afterDeclareAll env names
      return front ++ series ++ (← rest)) (stmtsInStep (t.enter (names.map safeName))) := by
  refine Inside.inScope fun s hs => ?_
  refine (ensures_defineAll kind names hs).bind fun existed s₁ hdefine => ?_
  have htracks : (t.enter (names.map safeName)).Tracks env.indicator.history names s₁.scopes := by
    refine hdefine.2.mono ?_
    rw [List.append_nil, fresh]
    intro x hx
    obtain ⟨p, hp, rfl⟩ := mem_map.1 hx
    exact (of_mem_zip (mem_filter.1 hp).1).1
  have hbound : ∀ x ∈ names,
      ((t.enter (names.map safeName)).current.find? (safeName x)).isSome := fun x hx =>
    Script.Frame.isSome_addAll (mem_map_of_mem hx)
  refine (ensures_afterDeclareAll names htracks hbound).bind fun series s₂ hseries => ?_
  refine (hrest _ s₂ hseries.tracks).bind fun code s₃ hcode => ensures_pure ?_
  refine ⟨stmtsInStep_start (hfront _) hseries hcode.1, _, ?_, hcode.2⟩
  rw [Vars.outer_afterAll, Vars.outer_afterAll]
  rfl

/-! ### Trees -/

end Lowering

/-- The description of a program knows the names whose history is read, and no import takes such a
name. -/
def Node.Indexed (history : List String) : Node → Prop
  | .expr (.index _ (.name _ n) _) => n ∈ history
  | .stmt (.importLib _ _ localName) => localName ∉ history
  | _ => True

namespace Lowering

/-- The nodes of a tree as the description of the program has them. -/
def Indexed (env : Context) (nodes : List Node) : Prop :=
  Each (Node.Indexed env.indicator.history) nodes

/-- A survey leaves out no part of a node but the name of a called function. -/
theorem Indexed.part {n m : Node} (h : Indexed env (n.walk Survey.descend)) (hm : m ∈ n.parts) :
    Indexed env (m.walk Survey.descend) := by
  rw [Node.walk_eq (Node.isMissing_of_mem_parts hm)] at h
  by_cases hbelow : m ∈ n.below (Survey.descend n)
  · exact each_flatMap.1 (each_cons.1 h).2 m hbelow
  · have hname : ∃ q x, m = .expr (.name q x) := by
      unfold Survey.descend at hbelow
      split at hbelow
      · exact ⟨_, _, (mem_cons.1 hm).resolve_right hbelow⟩
      · exact absurd hm hbelow
    obtain ⟨q, x, rfl⟩ := hname
    exact each_cons.2 ⟨trivial, each_nil⟩

theorem Indexed.choice {e : Expr} {choice : Stmt}
    (h : Indexed env (Node.walk Survey.descend (.expr e))) (hchoice : e.choice? = some choice) :
    Indexed env (Node.walk Survey.descend (.stmt choice)) := by
  cases e <;> cases hchoice <;> exact each_cons.2 ⟨trivial, (each_cons.1 h).2⟩

theorem Indexed.self {n : Node} (h : Indexed env (n.walk Survey.descend)) :
    n.Indexed env.indicator.history := by
  unfold Node.Indexed
  split
  · exact (each_cons.1 h).1
  · exact (each_cons.1 h).1
  · trivial

theorem emits_importLib (tail : Bool) (p : Pos) (path localName : String)
    (h : localName ∉ env.indicator.history) :
    Emits env t (stmt env tail (.importLib p path localName)) := by
  rw [stmt]
  refine fun s hs => (ensures_define localName .library).bind ?_
  rintro _ _ ⟨rfl, rfl⟩
  refine (ensures_warn _ _ _ _).bind ?_
  rintro _ _ ⟨_, rfl⟩
  refine ensures_pure ⟨Script.stmtsInStep_singleton trivial rfl, ?_⟩
  have htracks := hs.define localName .library
  exact ⟨htracks.current.settle fun hmem => absurd hmem h, htracks.outer⟩

theorem emits_one {s : Script.Stmt} (h : Still t s) : Emits env t (pure [s]) :=
  emits_pure (forall_mem_singleton.2 h)

/-- A loop behind its counter. -/
theorem emits_loop {s : Script.Stmt} (n : Nat) (h : Still t s) :
    Emits env t (pure [.counter n, s]) :=
  emits_pure (forall_mem_cons.2 ⟨⟨trivial, rfl, rfl⟩, forall_mem_singleton.2 h⟩)

theorem still_guard (n limit : Nat) : ∀ s ∈ [Script.Stmt.guard n limit], Still t s :=
  forall_mem_singleton.2 ⟨trivial, rfl, rfl⟩

/-- **Trees of a program are lowered to code in step**, whatever the variables are. -/
theorem treeLogic_inStep (env : Context) :
    TreeLogic env True (fun n => Indexed env (n.walk Survey.descend)) (fun _ => True)
      (fun t => Steady env t) (fun t e => e.InStep t) (fun t _ _ => stmtsInStep (t.enter []))
      (fun t _ _ o => o.InStep t) (fun t _ _ => Emits env t) where
  parts _ h _ := h.part
  choice h hchoice := Indexed.choice h hchoice
  blocks _ _ _ _ := trivial
  later _ := trivial
  steps _ := stepLogic_keeps _
  closed _ := exprClosed_inStep
  name _ _ := trivial
  warned _ := steady_warn
  history h ho _ hs := ensures_pure ⟨⟨fun _ => hs.hasSeries h.self, ho⟩, hs⟩
  value := inStep_valueBlock _
  bind := Steady.bind_emits
  failed _ _ _ _ pos gap _ _ := ensures_fail pos gap
  scope hs hQ := Inside.inScope ((hs _).inside.map hQ)
  nil := emits_pure nofun
  cons _ _ := Emits.append
  decl _ hv := (emits_declStmts hv _ _ _ _ _).append_still fun _ =>
    still_ret (inStep_declaredValue _ _) _
  assign {t tail p q n op value v} hv s hs := by
    refine (ensures_assigned hs hv n op).bind fun code s' hcode => ensures_pure ?_
    obtain ⟨hret, hall⟩ := stmtsInStep_of_still (t := t.afterAll _)
      (still_ret (e := .name (safeName n)) trivial tail)
    refine ⟨Script.stmtsInStep_append hcode.1 hret, ?_⟩
    rw [Vars.afterAll_append, hall]
    exact hcode.2
  assignMember _ hobject hv := by
    refine (steady_member hobject false _ _).bind_emits fun e he =>
      emits_one ⟨⟨he.1, hv⟩, ?_, rfl⟩
    -- a member is no variable, so that no cell and no series has to follow it
    cases e with
    | name n => exact absurd rfl (he.2 n)
    | _ => rfl
  func hs := (steady_block .param _ [] (fun _ => nofun) hs).bind_emits fun _ hcode =>
    emits_pure (forall_mem_cons.2 ⟨⟨hcode, rfl, rfl⟩, still_shims _ _ _⟩)
  ifElse hc hyes hno := emits_one ⟨⟨hc, hyes, hno⟩, rfl, rfl⟩
  loop _ hloop hs := by
    refine steady_freshLoop.bind_emits fun n _ => (steady_block .loop _ _
      (fun _ => still_guard n _) hs).bind_emits fun code hcode => emits_loop n ?_
    cases hloop with
    | whileLoop hc | forOf hc | forEntries hc => exact ⟨⟨hc, hcode⟩, rfl, rfl⟩
    | forStep _ _ hfirst hlast hstep => exact ⟨⟨hfirst, hlast, hstep, hcode⟩, rfl, rfl⟩
    | forEither hfirst hlast => exact ⟨⟨hfirst, hlast, hcode⟩, rfl, rfl⟩
  retVoid _ := emits_one ⟨trivial, rfl, rfl⟩
  ret _ hv := emits_one ⟨hv, rfl, rfl⟩
  brk := emits_one ⟨trivial, rfl, rfl⟩
  cont := emits_one ⟨trivial, rfl, rfl⟩
  choices hbranches hlast := emits_pure (still_chain hbranches hlast)
  subject {t tail p subject arms v branches last} hv hbranches hlast := by
    refine steady_freshSwitch.bind_emits fun n _ s hs => ?_
    have howed := owed_subject hs n v
    have hs' := hs.add_madeUp (Script.subjectName_ne_safeName n)
    refine (hbranches _ n s hs').bind fun bs s₁ hbs => ?_
    refine (hlast _ s₁ hbs.2).bind fun last s₂ hlast => ensures_pure ?_
    obtain ⟨hchain, hall⟩ := stmtsInStep_of_still (still_chain hbs.1 hlast.1)
    refine ⟨⟨hv, ?_, hchain⟩, ?_⟩
    · rw [howed]
      exact nofun
    · exact hall.symm ▸ hlast.2
  native hv _ hcases := emits_one ⟨⟨hv, casesInStep_of hcases⟩, rfl, rfl⟩
  typeDecl {t _ _ _ _} hfields := Steady.bind_emits (P := Script.slotsInStep t)
    (keeps_slots (stepLogic_keeps _) trivial trivial (fun _ _ _ _ hi hs => ⟨hi, hs⟩) hfields)
    fun _ hs => emits_one ⟨hs, rfl, rfl⟩
  importLib h := emits_importLib _ _ _ _ h.self
  exported := id
  silent _ := emits_pure nofun
  exprStmt {_ tail _ _ _} _ hv := emits_one (by cases tail <;> exact ⟨hv, rfl, rfl⟩)
  nothing := trivial
  block := id
  elseIf hc hyes hno := ⟨hc, hyes, hno⟩

theorem emits_body {ss : List Stmt} (h : ∀ s ∈ ss, Indexed env (s.walk Survey.descend))
    (tail : Bool) (t : Vars) : Emits env t (body env tail ss) :=
  (treeLogic_inStep env).body (fun s hs => (treeLogic_inStep env).node (.stmt s) (h s hs))
    trivial (.inl trivial) t tail

end Lowering

end Pine
