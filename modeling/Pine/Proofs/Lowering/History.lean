import Pine.Proofs.Lowering.InStep
import Pine.Proofs.Lowering.Progress

/-!
# Histories of scripts

The series of a script exist where they are read and stay in step with their variables. The
prologue makes the series of the price series and of the names that the program only reads; all
others are made by declarations.
-/

namespace Pine

open Lower List
open Script (Vars stmtsInStep safeName)

namespace Lowering

variable {env : Context}

/-! ### The prologue -/

/-- A declaration binds no other name. -/
theorem ensures_afterDeclare_current {s : State} {name : String} {symbol : Symbol}
    (hbound : s.scopes.current.find? name = some symbol) :
    Ensures (afterDeclare env name) s fun _ s' =>
      ∀ x, x ≠ name → s'.scopes.current.find? x = s.scopes.current.find? x := by
  refine ensures_get ?_
  split
  · refine (ensures_seriesBinding name).mono ?_
    rintro _ _ ⟨key, -, rfl⟩ x hx
    rw [Scopes.current_update hbound, Scope.find?_update_of_ne (by simp) hx]
  · exact ensures_pure fun _ _ => rfl

/-- Price series are declared once each. -/
theorem ensures_sourceStmts : (names : List String) → names.Nodup → {s : State} → {t : Vars} →
    t.Tracks env.indicator.history [] s.scopes →
    (∀ x ∈ names, s.scopes.current.find? x = none) →
    Ensures (sourceStmts env names) s fun code s' => stmtsInStep t code ∧
      (t.afterAll code).Tracks env.indicator.history [] s'.scopes
  | [], _, _, _, h, _ => ensures_pure ⟨trivial, h⟩
  | name :: names, hnodup, s, t, h, hnew => by
    obtain ⟨hname, hnodup⟩ := nodup_cons.1 hnodup
    obtain ⟨hnew, hnames⟩ := forall_mem_cons.1 hnew
    refine (ensures_define name .plain).bind ?_
    rintro _ _ ⟨-, rfl⟩
    have htracks := h.define_of_notBound hnew .plain
    have hfind := find?_add_new h hnew { name := safeName name } rfl
    have hcurrent : (s.scopes.define name .plain).current =
        { name, kind := .plain } :: s.scopes.current := by
      rw [Scopes.define_of_notBound hnew, Scopes.current_add]
    have hbound := Scopes.find?_define_new hnew .plain
    have hdeclare := ensures_afterDeclare (s := { s with scopes := s.scopes.define name .plain })
      htracks (by rw [htracks.isSome_current, hbound]; rfl)
    refine (hdeclare.and (ensures_afterDeclare_current hbound)).bind fun series s₁ hseries => ?_
    obtain ⟨hbooks, hother⟩ := hseries
    have hrest : ∀ x ∈ names, s₁.scopes.current.find? x = none := by
      intro x hx
      have hne : x ≠ name := fun heq => hname (heq ▸ hx)
      rw [hother x hne, hcurrent]
      exact (Scope.find?_cons_of_ne hne).trans (hnames x hx)
    refine (ensures_sourceStmts names hnodup hbooks.tracks hrest).bind fun code s₂ hcode =>
      ensures_pure ⟨?_, ?_⟩
    · refine Script.stmtsInStep_append (stmtsInStep_write trivial hbooks ?_) hcode.1
      simp [Script.Stmt.owed, Script.Stmt.writes, Script.Vars.after, hfind, Script.Binding.stores]
    · rw [Vars.afterAll_append]
      exact hcode.2

/-- A name that is not declared is bound by its series. -/
theorem ensures_afterDeclare_history {s : State} {t : Vars} {name : String}
    (h : t.Tracks env.indicator.history [] s.scopes) (hname : name ∈ env.indicator.history) :
    Ensures (afterDeclare env name) { s with scopes := s.scopes.define name .plain }
      fun code s' => stmtsInStep t code ∧
        (t.afterAll code).Tracks env.indicator.history [] s'.scopes := by
  cases hfind : s.scopes.current.find? name with
  | some symbol =>
    rw [Scopes.define_of_bound hfind]
    have hbound : (t.current.find? (safeName name)).isSome := by
      rw [h.isSome_current, hfind]
      rfl
    exact (ensures_afterDeclare (h.mono (nil_subset _)) hbound).mono fun _ _ hbooks =>
      ⟨hbooks.inStep, hbooks.tracks⟩
  | none =>
    have htracks := h.define_of_notBound hfind .plain
    have hbound := Scopes.find?_define_new hfind .plain
    refine ensures_get ?_
    rw [Scopes.find?_of_current hbound, if_pos (by simpa using hname)]
    refine (ensures_seriesBinding name).mono ?_
    rintro _ _ ⟨key, rfl, rfl⟩
    refine ⟨Script.stmtsInStep_series key fun b hb => ?_, ?_⟩
    · rw [h.current.find?_safeName, hfind] at hb
      cases hb
    · have hmark := htracks.mark hbound key
      simp only [Script.Vars.after, Script.Vars.add, Script.Frame.mark_add] at hmark
      exact hmark

theorem emits_historyStmts (names : List String) (hnames : ∀ x ∈ names, x ∈ env.indicator.history)
    (t : Vars) : Emits env t (historyStmts env names) := by
  induction names generalizing t with
  | nil => exact emits_pure (forall_mem_nil _)
  | cons name names ih =>
    obtain ⟨hname, hnames⟩ := forall_mem_cons.1 hnames
    intro s hs
    refine (ensures_define name .plain).bind ?_
    rintro _ _ ⟨-, rfl⟩
    refine (ensures_afterDeclare_history hs hname).bind fun series s₁ hseries => ?_
    refine (ih hnames _ s₁ hseries.2).bind fun code s₂ hcode =>
      ensures_pure ⟨Script.stmtsInStep_append hseries.1 hcode.1, ?_⟩
    rw [Vars.afterAll_append]
    exact hcode.2

theorem emits_cellStmts (pairs : List (Program.Persistent × String)) (t : Vars) :
    Emits env t (cellStmts pairs) := by
  induction pairs with
  | nil => exact emits_pure (forall_mem_nil _)
  | cons pair pairs ih =>
    obtain ⟨d, cell⟩ := pair
    refine Steady.bind_emits (steady_seriesKey _) fun key _ s hs => ?_
    refine (ih s hs).bind fun code s' hcode => ensures_pure ⟨?_, hcode.2⟩
    exact ⟨trivial, forall_mem_nil _, trivial, forall_mem_nil _, hcode.1⟩

/-- The prologue of a script is in step. -/
theorem ensures_prologue_inStep (program : Program) (hsources : env.indicator.sources.Nodup)
    {s : State} (hs : s.scopes = {}) :
    Ensures (prologue env program) s fun code s' => stmtsInStep {} code ∧
      (({} : Vars).afterAll code).Tracks env.indicator.history [] s'.scopes := by
  have htracks : ({} : Vars).Tracks env.indicator.history [] s.scopes := by
    rw [hs]
    exact ⟨.nil, .nil⟩
  have hnodup : (env.indicator.sortedSources.filter (· ∉ program.topLevelNames)).Nodup :=
    ((mergeSort_perm ..).nodup_iff.2 hsources).filter _
  have hnew (x : String) (_ : x ∈ env.indicator.sortedSources.filter (· ∉ program.topLevelNames)) :
      s.scopes.current.find? x = none := by
    rw [hs]
    rfl
  have hhistory (x : String) (hx : x ∈ env.indicator.sortedHistory.filter fun n =>
      n ∉ program.declaredNames && n ∉ priceSources) : x ∈ env.indicator.history :=
    (mergeSort_perm ..).mem_iff.1 (mem_filter.1 hx).1
  refine (ensures_sourceStmts _ hnodup htracks hnew).bind fun first s₁ hfirst => ?_
  refine (emits_historyStmts _ hhistory _ s₁ hfirst.2).bind fun second s₂ hsecond => ?_
  refine (emits_cellStmts _ _ s₂ hsecond.2).bind fun third s₃ hthird => ensures_pure ⟨?_, ?_⟩
  · refine Script.stmtsInStep_append (Script.stmtsInStep_append hfirst.1 hsecond.1) ?_
    rw [Vars.afterAll_append]
    exact hthird.1
  · rw [Vars.afterAll_append, Vars.afterAll_append]
    exact hthird.2

theorem ensures_script (program : Program) (hsources : env.indicator.sources.Nodup)
    (hindexed : Indexed env (walkStmts Survey.descend program)) {s : State} (hs : s.scopes = {}) :
    Ensures (do
      let first ← prologue env program
      return first ++ (← body env false program)) s fun code _ => stmtsInStep {} code := by
  refine (ensures_prologue_inStep program hsources hs).bind fun first s₁ hfirst => ?_
  refine (emits_body (each_stmts.1 hindexed) false _ s₁ hfirst.2).bind fun rest s₂ hrest => ?_
  exact ensures_pure (Script.stmtsInStep_append hfirst.1 hrest.1)

end Lowering

/-! ### Programs -/

/-- The description of a program has what its nodes need, if no import takes a name whose history
is read. -/
theorem Program.indexed_walk {program : Program} (d : Diagnostics)
    (himports : ∀ p path localName, .stmt (.importLib p path localName) ∈ program.nodes →
      localName ∉ program.indexedNames) :
    Each (Node.Indexed (Indicator.ofProgram program d).1.history)
      (walkStmts Survey.descend program) := by
  have hwalk : Each (· ∈ program.nodes) (walkStmts Survey.descend program) :=
    each_walkStmts Survey.descend program fun _ hmem => hmem
  intro n hn
  unfold Node.Indexed
  split
  · exact Indicator.mem_history_ofProgram.2 (mem_filterMap.2 ⟨_, hn, rfl⟩)
  · exact fun hmem => himports _ _ _ (hwalk _ hn) (Indicator.mem_indexedNames hmem)
  · trivial

/-- **Series are there when they are read, and cells and series stay in step with their
variables.** For every program in which no import takes a name whose history is read, and whatever
the builtins, the options and the version: at every place of its script, a history is read only of
variables that have a series by then or that are not bound, no variable gets a second series, and
every write of a variable is followed at once by the stores into its cell and its series. -/
theorem Program.inStep_lower (program : Program) (options : Lowering.Options) (version : Nat)
    (d₀ d : Diagnostics)
    (himports : ∀ p path localName, .stmt (.importLib p path localName) ∈ program.nodes →
      localName ∉ program.indexedNames) {script : Script} {d' : Diagnostics}
    (h : program.lower options { (Indicator.ofProgram program d₀).1 with version } d =
      (.ok script, d')) :
    stmtsInStep {} script.body := by
  unfold lower at h
  dsimp only at h
  split at h
  · next body s hbody =>
    cases h
    refine Ensures.apply (Lowering.ensures_script program ?_ ?_ rfl) hbody
    · exact Indicator.nodup_sources_ofProgram
    · exact program.indexed_walk d₀ himports
  · cases h

/-- A program that imports a library and reads the history of a persistent variable. -/
def keptProgram : Program :=
  [.importLib ⟨1, 1⟩ "user/tools/1" "tools",
    .decl ⟨2, 1⟩ 0 "x" [] "var" "" (.index ⟨2, 9⟩ (.name ⟨2, 9⟩ "close") (.number ⟨2, 15⟩ "1")),
    .assign ⟨3, 1⟩ (.name ⟨3, 1⟩ "x") .add
      (.index ⟨3, 6⟩ (.name ⟨3, 6⟩ "x") (.number ⟨3, 8⟩ "1"))]

theorem Program.inStep_lower_kept :
    ∃ script d', keptProgram.lower {}
        { (Indicator.ofProgram keptProgram {}).1 with version := 5 } {} = (.ok script, d') ∧
      stmtsInStep {} script.body := by
  have himports (p : Pos) (path localName : String)
      (hmem : .stmt (.importLib p path localName) ∈ keptProgram.nodes) :
      localName ∉ keptProgram.indexedNames := by
    have himport : p = ⟨1, 1⟩ ∧ path = "user/tools/1" ∧ localName = "tools" := by
      simpa [keptProgram, Program.nodes, walkStmts, Stmt.walk, Expr.walk, listed] using hmem
    rw [himport.2.2]
    decide
  have hcomplete : CompleteStmts anyKey keptProgram := by
    simp [keptProgram, CompleteStmts, Stmt.Complete, Expr.Complete, Expr.IsTarget, anyKey]
  obtain ⟨script, d', h⟩ := lower_complete hcomplete {}
    { (Indicator.ofProgram keptProgram {}).1 with version := 5 } {}
  exact ⟨script, d', h, inStep_lower keptProgram {} 5 {} {} himports h⟩

end Pine
