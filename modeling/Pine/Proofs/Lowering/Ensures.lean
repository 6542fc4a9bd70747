import Pine.Lowering.Basic

/-!
# What a step of lowering ensures

What holds of the result of a step and of the state behind it is proved along the step: for a
sequence of two steps it is what the second ensures from wherever the first can stop. A step that
fails ensures everything.
-/

namespace Pine

/-! ### Scopes -/

namespace Scopes

variable {s : Scopes} {name : String} {symbol : Symbol}

/-- The scopes around the innermost one. -/
def outer (s : Scopes) : List Scope := s.toList.tail

theorem toList_eq (s : Scopes) : s.toList = s.current :: s.outer := by
  obtain ⟨entry, inner⟩ := s
  cases inner <;> rfl

theorem name_of_find? (h : s.find? name = some symbol) : symbol.name = name := by
  obtain ⟨scope, -, hscope⟩ := List.exists_of_findSome?_eq_some h
  simpa using List.find?_some hscope

/-- What is bound in the innermost scope is found there. -/
theorem find?_of_current (h : s.current.find? name = some symbol) : s.find? name = some symbol := by
  rw [find?, toList_eq, List.findSome?_cons, h]

theorem define_of_bound (h : s.current.find? name = some symbol) (kind : SymbolKind) :
    s.define name kind = s := by
  rw [define, h]
  rfl

end Scopes

/-! ### Steps -/

namespace Lower

open Lowering (State)

variable {α β : Type} {s : State} {step : Lower α} {Q : β → State → Prop}

/-- What holds of the result and the state if a step succeeds. -/
def Ensures (step : Lower α) (s : State) (Q : α → State → Prop) : Prop :=
  ∀ a s', step s = .ok a s' → Q a s'

theorem ensures_pure {R : α → State → Prop} {a : α} (h : R a s) : Ensures (pure a) s R := by
  rintro _ _ ⟨⟩
  exact h

theorem ensures_fail {R : α → State → Prop} (pos : Pos) (gap : Gap) :
    Ensures (fail pos gap) s R := by
  rintro _ _ ⟨⟩

theorem Ensures.mono {R S : α → State → Prop} (h : Ensures step s R)
    (h' : ∀ a s', R a s' → S a s') : Ensures step s S :=
  fun a s' hs => h' a s' (h a s' hs)

theorem Ensures.and {R S : α → State → Prop} (h : Ensures step s R) (h' : Ensures step s S) :
    Ensures step s fun a s' => R a s' ∧ S a s' :=
  fun a s' hs => ⟨h a s' hs, h' a s' hs⟩

theorem Ensures.bind {R : α → State → Prop} {next : α → Lower β} (h : Ensures step s R)
    (h' : ∀ a s', R a s' → Ensures (next a) s' Q) : Ensures (step >>= next) s Q := by
  intro b s'' hb
  change EStateM.bind step next s = _ at hb
  rw [EStateM.bind] at hb
  split at hb
  · next a s' ha => exact h' a s' (h a s' ha) b s'' hb
  · cases hb

/-- What follows any result of a step. -/
theorem ensures_bind {next : α → Lower β} (h : ∀ a s', Ensures (next a) s' Q) :
    Ensures (step >>= next) s Q :=
  Ensures.bind (fun _ _ _ => trivial) fun a s' _ => h a s'

theorem ensures_pure_bind {next : α → Lower β} {a : α} (h : Ensures (next a) s Q) :
    Ensures (pure a >>= next) s Q := h

theorem ensures_get {next : State → Lower β} (h : Ensures (next s) s Q) :
    Ensures (get >>= next) s Q := h

theorem ensures_modify {next : Unit → Lower β} {f : State → State}
    (h : Ensures (next ()) (f s) Q) : Ensures (modify f >>= next) s Q := h

/-- A step that is known to succeed. -/
theorem Ensures.of_eq {a : α} {s' : State} (h : step s = .ok a s') :
    Ensures step s fun b s'' => b = a ∧ s'' = s' := by
  intro b s'' hb
  cases h.symm.trans hb
  exact ⟨rfl, rfl⟩

theorem Ensures.apply {P : α → Prop} {a : α} {s' : State} (h : Ensures step s fun a _ => P a)
    (hs : step s = .ok a s') : P a :=
  h a s' hs

theorem Ensures.inScope {R : α → State → Prop}
    (h : Ensures step { s with scopes := s.scopes.enter } fun a s' =>
      R a { s' with scopes := s'.scopes.leave }) : Ensures (inScope step) s R :=
  ensures_modify (h.bind fun _ _ h' => ensures_modify (ensures_pure h'))

theorem ensures_afterAssign (name : String) :
    Ensures (afterAssign name) s fun code s' =>
      code = ((s.scopes.find? name).map stores).getD [] ∧ s' = s :=
  ensures_get (ensures_pure ⟨rfl, rfl⟩)

/-- Binding a name tells whether it was bound in the innermost scope. -/
theorem ensures_define (name : String) (kind : SymbolKind) :
    Ensures (define name kind) s fun existed s' =>
      existed = (s.scopes.current.find? name).isSome ∧
        s' = { s with scopes := s.scopes.define name kind } :=
  ensures_get (ensures_modify (ensures_pure ⟨rfl, rfl⟩))

end Lower

end Pine
