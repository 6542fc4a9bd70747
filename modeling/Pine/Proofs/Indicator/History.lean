import Mathlib.Data.List.Nodup
import Pine.Indicator.Survey
import Pine.Proofs.Tree.Named

/-!
# The names that a description holds

A survey puts a name among those whose history is read when it comes to an offset of the name, and
at no other node. It lists every price series once.
-/

namespace Pine

open List

/-- The name whose history a node reads. -/
def Node.indexed? : Node → Option String
  | .expr (.index _ (.name _ n) _) => some n
  | _ => none

/-- The names whose history a program reads. -/
def Program.indexedNames (program : Program) : List String :=
  program.nodes.filterMap Node.indexed?

theorem Text.mem_addName {x name : String} {names : List String} :
    x ∈ Text.addName name names ↔ x = name ∨ x ∈ names := by
  unfold Text.addName
  split
  · next h => exact ⟨.inr, fun hx => hx.elim (· ▸ h) id⟩
  · rw [mem_append, mem_singleton, or_comm]

theorem Text.nodup_addName {name : String} {names : List String} (h : names.Nodup) :
    (Text.addName name names).Nodup := by
  unfold Text.addName
  split
  · exact h
  · next hname => exact nodup_append.2 ⟨h, nodup_singleton _, by grind⟩

namespace Survey

variable {functions : List String} {s : Survey}

/-- A call adds no names. -/
theorem names_builtinCall (name : String) (line : Int) (key : Nat) (args : List Arg) :
    (s.builtinCall name line key args).indicator.history = s.indicator.history ∧
      (s.builtinCall name line key args).indicator.sources = s.indicator.sources := by
  unfold builtinCall
  split
  · dsimp only
    split <;> exact ⟨rfl, rfl⟩
  · split
    · exact ⟨rfl, rfl⟩
    · split
      · exact ⟨rfl, rfl⟩
      · cases Feature.warning? name line <;> exact ⟨rfl, rfl⟩

/-- What one node adds to the names whose history is read. -/
theorem history_visit (n : Node) : (visit functions s n).indicator.history =
    n.indexed?.elim s.indicator.history (Text.addName · s.indicator.history) := by
  unfold visit
  split
  · split <;> rfl
  · split <;> rfl
  · rfl
  · dsimp only
    split
    · rfl
    · exact (names_builtinCall ..).1
  · next _ _ hindex _ =>
    unfold Node.indexed?
    split
    · exact absurd rfl (hindex _ _ _ _)
    · rfl

theorem nodup_sources_visit (n : Node) (h : s.indicator.sources.Nodup) :
    (visit functions s n).indicator.sources.Nodup := by
  unfold visit
  split
  · split <;> exact h
  · split
    · exact Text.nodup_addName h
    · exact h
  · exact h
  · dsimp only
    split
    · exact h
    · rwa [(names_builtinCall ..).2]
  · exact h

theorem mem_history_foldl {x : String} (nodes : List Node) :
    x ∈ (nodes.foldl (visit functions) s).indicator.history ↔
      x ∈ s.indicator.history ∨ x ∈ nodes.filterMap Node.indexed? := by
  induction nodes generalizing s with
  | nil => simp
  | cons n nodes ih =>
    rw [foldl_cons, ih, history_visit, filterMap_cons]
    cases n.indexed? with
    | none => rfl
    | some name =>
      rw [Option.elim_some, Text.mem_addName, mem_cons, or_assoc, or_left_comm]

theorem nodup_sources_foldl (nodes : List Node) (h : s.indicator.sources.Nodup) :
    (nodes.foldl (visit functions) s).indicator.sources.Nodup := by
  induction nodes generalizing s with
  | nil => exact h
  | cons n nodes ih => exact ih (nodup_sources_visit n h)

end Survey

namespace Indicator

variable {program : Program} {d : Diagnostics}

/-- **The names whose history is read** are those of the offsets that the survey comes to. -/
theorem mem_history_ofProgram {x : String} : x ∈ (ofProgram program d).1.history ↔
    x ∈ (walkStmts Survey.descend program).filterMap Node.indexed? := by
  rw [ofProgram, Survey.mem_history_foldl]
  simp

theorem nodup_sources_ofProgram : (ofProgram program d).1.sources.Nodup :=
  Survey.nodup_sources_foldl _ nodup_nil

/-- A program reads the history of every name that its description has. -/
theorem mem_indexedNames {x : String} (h : x ∈ (ofProgram program d).1.history) :
    x ∈ program.indexedNames := by
  obtain ⟨n, hn, hx⟩ := mem_filterMap.1 (mem_history_ofProgram.1 h)
  have hwalk : Each (· ∈ program.nodes) (walkStmts Survey.descend program) :=
    each_walkStmts Survey.descend program fun _ hmem => hmem
  exact mem_filterMap.2 ⟨n, hwalk n hn, hx⟩

end Indicator

end Pine
