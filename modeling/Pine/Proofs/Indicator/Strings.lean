import Pine.Indicator.Survey
import Pine.Proofs.Tree.Named
import Pine.Proofs.Tree.Strings

/-!
# Descriptions and strings

A survey takes titles, defaults and options from the strings of a program. What lowering reads of a
description does not depend on them: the price series, the names whose history is read, and the
numbers of inputs and plots. Of the title only matters whether it is empty.
-/

namespace Pine

/-- No string becomes empty, or stops to be so. -/
def Rewording.KeepsEmpty (r : Rewording) : Prop := ∀ s, r.string s = "" ↔ s = ""

theorem Rewording.keepsEmpty_same : same.KeepsEmpty := fun _ => Iff.rfl

theorem Rewording.keepsEmpty_blank : blank.KeepsEmpty := by
  intro s
  by_cases h : s = "" <;> simp [blank, h]

/-- Descriptions that agree on what lowering reads, with identifiers for the names that are read. -/
structure Indicator.Twin (i j : Indicator) : Prop where
  version : j.version = i.version
  name : j.name = "" ↔ i.name = ""
  inputs : j.inputs.length = i.inputs.length
  plots : j.plots.length = i.plots.length
  sources : j.sources = i.sources
  history : j.history = i.history
  inputIds : j.inputIds = i.inputIds
  plotIds : j.plotIds = i.plotIds
  spelledSources : ∀ n ∈ i.sources, Script.isIdentifier n = true
  spelledHistory : ∀ n ∈ i.history, Script.isIdentifier n = true

theorem Indicator.twin_empty : Twin {} {} where
  version := rfl
  name := Iff.rfl
  inputs := rfl
  plots := rfl
  sources := rfl
  history := rfl
  inputIds := rfl
  plotIds := rfl
  spelledSources := by simp
  spelledHistory := by simp

theorem Indicator.Twin.withVersion {i j : Indicator} (h : i.Twin j) (version : Nat) :
    Indicator.Twin { i with version } { j with version } :=
  { h with version := rfl }

theorem Text.forall_mem_addName {P : String → Prop} {name : String} {names : List String}
    (hn : P name) (h : ∀ n ∈ names, P n) : ∀ n ∈ Text.addName name names, P n := by
  unfold Text.addName
  split
  · exact h
  · exact List.forall_mem_append.2 ⟨h, by simpa using hn⟩

theorem Expr.string?_reword (r : Rewording) (e : Expr) :
    (e.reword r).string? = e.string?.map r.string := by
  cases e <;> rfl

namespace Survey

variable {L : String → String → Prop} {r : Rewording} {functions : List String} {s t : Survey}

theorem twin_declaration (hr : r.KeepsEmpty) {i j : Indicator} (h : i.Twin j) (name : String)
    (args : List Arg) :
    (declaration i name args).Twin (declaration j name (rewordArgs r args)) := by
  refine { h with name := ?_ }
  simp only [declaration, Args.find_reword, Expr.string?_reword]
  cases (Args.find args "title" (some 0)).string? with
  | none => exact h.name
  | some title => exact hr title

/-- A call of a builtin function in both surveys. -/
theorem twin_builtinCall (hr : r.KeepsEmpty) (h : s.indicator.Twin t.indicator) (name : String)
    (line line' : Int) (key : Nat) (args : List Arg) :
    (s.builtinCall name line key args).indicator.Twin
      (t.builtinCall name line' key (rewordArgs r args)).indicator := by
  have hwarned (u : Survey) (l : Int) :
      (((Feature.warning? name l).map u.warn).getD u).indicator = u.indicator := by
    cases Feature.warning? name l <;> rfl
  unfold builtinCall
  split
  · split <;> exact twin_declaration hr h name args
  · split
    · refine { h with inputs := ?_, inputIds := ?_ }
      · simp [input, h.inputs]
      · simp [input, h.inputs, h.inputIds]
    · split
      · refine { h with plots := ?_, plotIds := ?_ }
        · simp [plot, h.plots]
        · simp [plot, h.plots, h.plotIds]
      · rw [hwarned, hwarned]
        exact h

/-- **What one node adds** to two surveys that agree so far, in one of them with other strings. -/
theorem twin_visit (hr : r.KeepsEmpty) (h : s.indicator.Twin t.indicator) {n : Node}
    (hn : n.Named L) : (visit functions s n).indicator.Twin
      (visit functions t (n.reword r)).indicator := by
  cases n with
  | program _ => exact h
  | stmt st =>
    cases st with
    | decl p key name names qualifier type value =>
      cases value with
      | call =>
        simp only [Node.reword, Stmt.reword, Expr.reword, visit]
        split <;> exact h
      | _ => exact h
    | _ => exact h
  | expr e =>
    cases e with
    | name p name =>
      simp only [Node.reword, Expr.reword, visit]
      split
      · exact { h with
          sources := congrArg (Text.addName name) h.sources
          spelledSources :=
            Text.forall_mem_addName (Script.isIdentifier_of_isNameShaped hn) h.spelledSources }
      · exact h
    | index p object offset =>
      cases object with
      | name q name =>
        exact { h with
          history := congrArg (Text.addName name) h.history
          spelledHistory :=
            Text.forall_mem_addName (Script.isIdentifier_of_isNameShaped hn) h.spelledHistory }
      | _ => exact h
    | call p key callee args types =>
      simp only [Node.reword, Expr.reword, visit, Expr.path_reword]
      split
      · exact h
      · exact twin_builtinCall hr h callee.path p.line (r.move p).line key args
    | _ => exact h

/-- What all nodes add. -/
theorem twin_foldl (hr : r.KeepsEmpty) : {nodes : List Node} → Each (Node.Named L) nodes →
    {s t : Survey} → s.indicator.Twin t.indicator →
    (nodes.foldl (visit functions) s).indicator.Twin
      ((nodes.map (Node.reword r)).foldl (visit functions) t).indicator
  | [], _, _, _, h => h
  | _ :: _, hn, _, _, h => twin_foldl hr (each_cons.1 hn).2 (twin_visit hr h (each_cons.1 hn).1)

theorem ignoresStrings_descend : IgnoresStrings r descend
  | .program _ | .stmt _ => rfl
  | .expr e => by
    cases e with
    | call p key callee args types => cases callee <;> rfl
    | _ => rfl

end Survey

theorem Program.functionNames_reword (r : Rewording) (program : Program) :
    Program.functionNames (rewordStmts r program) = program.functionNames := by
  rw [functionNames, nodes_reword, List.filterMap_map]
  congr 1
  funext n
  cases n with
  | program _ => rfl
  | expr e => rfl
  | stmt s => cases s <;> rfl

/-- **The description of a program with other strings** agrees with that of the program on what
lowering reads. -/
theorem Indicator.twin_ofProgram {L : String → String → Prop} {r : Rewording} (hr : r.KeepsEmpty)
    {program : Program} (h : NamedStmts L program) (d d' : Diagnostics) :
    (ofProgram program d).1.Twin (ofProgram (rewordStmts r program) d').1 := by
  have hnodes : Each (Node.Named L) (walkStmts Survey.descend program) :=
    each_walkStmts Survey.descend program h
  unfold ofProgram
  rw [walkStmts_reword Survey.ignoresStrings_descend, Program.functionNames_reword]
  exact { Survey.twin_foldl hr hnodes twin_empty with }

end Pine
