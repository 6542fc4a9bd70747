import Pine.Proofs.Lowering.Bindings

/-!
# Scopes nest like a stack

Lowering opens a scope for every block, function, loop and block with a value, and closes it at its
end. What is bound in between is bound in scopes that are gone by then, so that a name means the
same behind a block as in front of it. This holds for any steps that close what they open; steps
that close more than that stop at the scope of the entry function, which loses no name.

## Main results

* `Scopes.run_of_balanced`: balanced steps change at most the innermost scope.
* `Scopes.current_define`, `Scopes.find?_define_of_ne`: what names mean when one is bound.
* `Scopes.entry_run`: what any steps leave of the entry function.
* `Scopes.scopes_nest`: what a name means before, during and behind such steps.
-/

namespace Pine.Scopes

/-- What is done with scopes. -/
inductive Step where
  | enter
  | leave
  | define (name : String) (kind : SymbolKind)
  | find (name : String)

/-- The scopes after a step. Looking for a name changes nothing. -/
def after (s : Scopes) : Step → Scopes
  | .enter => s.enter
  | .leave => s.leave
  | .define name kind => s.define name kind
  | .find _ => s

/-- The scopes after steps in a row. -/
def run (s : Scopes) (steps : List Step) : Scopes := steps.foldl after s

/-- Steps that close every scope that they open, and no other. -/
inductive Balanced : List Step → Prop
  | nil : Balanced []
  | define {steps : List Step} (name : String) (kind : SymbolKind) (h : Balanced steps) :
      Balanced (.define name kind :: steps)
  | find {steps : List Step} (name : String) (h : Balanced steps) : Balanced (.find name :: steps)
  | block {body steps : List Step} (h : Balanced body) (h' : Balanced steps) :
      Balanced (.enter :: body ++ .leave :: steps)

variable {s : Scopes} {steps : List Step} {name : String} {symbol : Symbol}

theorem run_block (s : Scopes) (body steps : List Step) :
    s.run (.enter :: body ++ .leave :: steps) = (s.enter.run body).leave.run steps := by
  rw [run, List.foldl_append]
  rfl

/-- **Balanced steps change at most the innermost scope.** -/
theorem run_of_balanced (h : Balanced steps) (entry scope : Scope) (inner : List Scope) :
    ∃ scope', run ⟨entry, scope :: inner⟩ steps = ⟨entry, scope' :: inner⟩ := by
  induction h generalizing scope inner with
  | nil => exact ⟨scope, rfl⟩
  | define name kind _ ih =>
    obtain ⟨scope₁, h₁⟩ : ∃ scope₁, define ⟨entry, scope :: inner⟩ name kind =
        ⟨entry, scope₁ :: inner⟩ := by
      unfold define
      split
      · exact ⟨scope, rfl⟩
      · exact ⟨{ name, kind } :: scope, rfl⟩
    obtain ⟨scope₂, h₂⟩ := ih scope₁ inner
    exact ⟨scope₂, (congrArg (run · _) h₁).trans h₂⟩
  | find _ _ ih => exact ih scope inner
  | block _ _ ih ih' =>
    -- the block is gone with its own scope, and the steps behind it start where it started
    obtain ⟨scope₁, h₁⟩ := ih [] (scope :: inner)
    obtain ⟨scope₂, h₂⟩ := ih' scope inner
    refine ⟨scope₂, ?_⟩
    rw [run_block, enter, h₁]
    exact h₂

theorem leave_run_of_balanced (h : Balanced steps) (hs : 0 < s.depth) :
    (s.run steps).leave = s.leave := by
  obtain ⟨entry, _ | ⟨scope, inner⟩⟩ := s
  · cases hs
  · obtain ⟨scope', hrun⟩ := run_of_balanced h entry scope inner
    rw [hrun]
    rfl

theorem entry_after (step : Step) (h : s.entry.find? name = some symbol) :
    (s.after step).entry.find? name = some symbol := by
  cases step with
  | enter | leave | find => exact h
  | define other kind =>
    obtain ⟨entry, inner⟩ := s
    cases hb : Scope.find? (current ⟨entry, inner⟩) other with
    | some bound => rwa [after, define_of_bound hb]
    | none =>
      rw [after, define, hb]
      cases inner with
      | cons scope inner => exact h
      | nil =>
        have hne : other ≠ name := by
          rintro rfl
          exact absurd (h.symm.trans hb) (by simp)
        simpa [add, Scope.find?, hne] using h

/-- **The entry function loses no name**, whatever is done. -/
theorem entry_run (steps : List Step) (h : s.entry.find? name = some symbol) :
    (s.run steps).entry.find? name = some symbol := by
  induction steps generalizing s with
  | nil => exact h
  | cons step steps ih => exact ih (entry_after step h)

theorem isSome_find?_of_entry (h : s.entry.find? name = some symbol) :
    (s.find? name).isSome = true := by
  rw [find?, List.findSome?_isSome_iff]
  exact ⟨s.entry, by simp [toList], by simp [h]⟩

/-! ### Bindings -/

theorem depth_define (s : Scopes) (name : String) (kind : SymbolKind) :
    (s.define name kind).depth = s.depth := by
  unfold define
  split
  · rfl
  · obtain ⟨entry, _ | ⟨scope, inner⟩⟩ := s <;> rfl

/-- A name that is bound has a symbol in the innermost scope: the one that it had there, or else a
new one. -/
theorem current_define (s : Scopes) (name : String) (kind : SymbolKind) :
    (s.define name kind).current.find? name =
      some ((s.current.find? name).getD { name, kind }) := by
  cases hbound : s.current.find? name with
  | some symbol => rw [define_of_bound hbound, hbound, Option.getD_some]
  | none => exact find?_define_new hbound kind

/-- Other names keep their symbols. -/
theorem find?_define_of_ne {other : String} (h : other ≠ name) (kind : SymbolKind) :
    (s.define name kind).find? other = s.find? other := by
  cases hbound : s.current.find? name with
  | some symbol => rw [define_of_bound hbound]
  | none =>
    rw [define_of_notBound hbound, find?, find?, toList_eq, toList_eq s, outer_add, current_add,
      List.findSome?_cons, List.findSome?_cons, Scope.find?_cons_of_ne h]

/-- **Scopes nest like a stack.** A name means the same behind a block as in front of it, as many
scopes are open, and what was bound in a scope is not seen behind it. A name always has the symbol
of the innermost scope that binds it. A name that is bound gets its symbol in the innermost scope,
where it hides those of the scopes around, unless the scope binds it already; other names keep
theirs. What the entry function binds stays bound. -/
theorem scopes_nest (s : Scopes) :
    (∀ body, Balanced body →
      (∀ name, (s.run (.enter :: body ++ [.leave])).find? name = s.find? name) ∧
      (s.run (.enter :: body ++ [.leave])).depth = s.depth) ∧
    (∀ body, Balanced body → 0 < s.depth → ∀ name,
      (s.run body).leave.find? name = s.leave.find? name) ∧
    (∀ steps name symbol, (s.run steps).find? name = some symbol ↔
      ∃ inside scope outside, (s.run steps).toList = inside ++ scope :: outside ∧
        scope.find? name = some symbol ∧ ∀ other ∈ inside, other.find? name = none) ∧
    (∀ steps name kind, let s₁ := s.run steps
      (s₁.define name kind).current.find? name =
        some ((s₁.current.find? name).getD { name, kind }) ∧
      (s₁.define name kind).find? name = some ((s₁.current.find? name).getD { name, kind }) ∧
      (∀ other, other ≠ name → (s₁.define name kind).find? other = s₁.find? other) ∧
      (s₁.define name kind).depth = s₁.depth) ∧
    (∀ steps name symbol, s.entry.find? name = some symbol →
      (s.run steps).entry.find? name = some symbol ∧ ((s.run steps).find? name).isSome = true) := by
  refine ⟨fun body h => ?_, fun body h hs name => ?_, fun steps name symbol => ?_,
    fun steps name kind => ?_, fun steps name symbol h => ?_⟩
  · have hrun : s.run (.enter :: body ++ [.leave]) = s :=
      (run_block s body []).trans (leave_run_of_balanced h (Nat.succ_pos _))
    exact ⟨fun name => by rw [hrun], by rw [hrun]⟩
  · rw [leave_run_of_balanced h hs]
  · exact List.findSome?_eq_some_iff
  · have hcurrent := current_define (s.run steps) name kind
    exact ⟨hcurrent, find?_of_current hcurrent, fun other hne => find?_define_of_ne hne kind,
      depth_define _ name kind⟩
  · have hentry := entry_run steps h
    exact ⟨hentry, isSome_find?_of_entry hentry⟩

/-- A block binds a name again, and inside of it another block does. There the name has the symbol
of the inner block, and behind the blocks its first one. -/
theorem scopes_nest_shadowed :
    let s : Scopes := { entry := [{ name := "x", kind := .plain }] }
    let body : List Step := [.define "x" .loop, .enter, .define "x" .param, .leave, .find "x"]
    Balanced body ∧
      ((s.run [.enter, .define "x" .loop, .enter]).define "x" .param).find? "x" =
        some { name := "x", kind := .param } ∧
      (s.run (.enter :: body ++ [.leave])).find? "x" = some { name := "x", kind := .plain } := by
  intro s body
  have hbody : Balanced body :=
    .define "x" .loop (.block (.define "x" .param .nil) (.find "x" .nil))
  exact ⟨hbody, ((scopes_nest s).2.2.2.1 _ "x" .param).2.1,
    ((scopes_nest s).1 body hbody).1 "x"⟩

end Pine.Scopes
