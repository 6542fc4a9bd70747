import Pine.Script.Basic

/-!
# Bookkeeping in scripts

A variable of a script can have a cell, which keeps it from bar to bar, and a series, which keeps
its history. Neither follows the variable by itself: a script has to put the variable into them
after every write. Reading a script from the start, the variables in scope and what is kept of them
are known at every place, block by block. The script is *in step* if no history is read of a
variable that has no series yet, no variable gets a second series, and behind every write stand the
statements that bring the cell and the series up to date, with nothing but such statements between.
-/

namespace Pine.Script

open List

/-! ### Variables -/

/-- A variable in scope, with what is kept of it. -/
structure Binding where
  /-- The name. -/
  name : String
  /-- The cell that keeps it from bar to bar. -/
  cell : Option String := none
  /-- Whether there is a series with its history. -/
  hasSeries : Bool := false
  deriving DecidableEq, Repr

/-- The statements that bring the cell and the series of a variable up to date. -/
def Binding.stores (b : Binding) : List Stmt :=
  (match b.cell with
    | some cell => [.store cell b.name]
    | none => []) ++
  if b.hasSeries then [.record b.name] else []

/-- The variables of one block. -/
abbrev Frame := List Binding

namespace Frame

/-- The variable of a name. -/
def find? (f : Frame) (name : String) : Option Binding := List.find? (·.name = name) f

/-- One more variable, unless its name is bound already. -/
def add (f : Frame) (b : Binding) : Frame := if (f.find? b.name).isSome then f else b :: f

/-- More variables. -/
def addAll (f : Frame) (names : List String) : Frame :=
  names.foldl (fun f name => f.add { name }) f

/-- Gives a variable a series; a name that is not bound is bound by that. -/
def mark (f : Frame) (name : String) : Frame :=
  (f.add { name }).map fun b => if b.name = name then { b with hasSeries := true } else b

end Frame

/-- The variables in scope at a place, block by block. -/
structure Vars where
  /-- The variables of the innermost block. -/
  current : Frame := []
  /-- The variables of the blocks around it, the innermost first. -/
  outer : List Frame := []

namespace Vars

/-- The innermost variable of a name. -/
def find? (t : Vars) (name : String) : Option Binding :=
  (t.current :: t.outer).findSome? (·.find? name)

/-- The start of a block with parameters. -/
def enter (t : Vars) (params : List String) : Vars :=
  { current := Frame.addAll [] params, outer := t.current :: t.outer }

/-- One more variable in the innermost block. -/
def add (t : Vars) (b : Binding) : Vars := { t with current := t.current.add b }

/-- The variables in scope behind a statement. Variables without values count from the assignment
that follows their declaration. -/
def after (t : Vars) : Stmt → Vars
  | .const name _ | .bind name _ | .importLib name _ => t.add { name }
  | .restore name cell _ => t.add { name, cell := some cell }
  | .bindTuple names _ | .assignTuple names _ => { t with current := t.current.addAll names }
  | .series name _ => { t with current := t.current.mark name }
  | _ => t

/-- The variables in scope behind statements. -/
def afterAll (t : Vars) (stmts : List Stmt) : Vars := stmts.foldl after t

end Vars

/-! ### Scripts in step -/

/-- Statements that keep cells and series. -/
def Stmt.isBookkeeping : Stmt → Bool
  | .store .. | .series .. | .record _ | .accessor _ => true
  | _ => false

/-- The bookkeeping that statements begin with. -/
def bookkeeping (stmts : List Stmt) : List Stmt := stmts.takeWhile Stmt.isBookkeeping

/-- The variables that a statement writes. -/
def Stmt.writes : Stmt → List String
  | .const name _ | .bind name _ | .restore name _ _ | .assign (.name name) _ _ => [name]
  | .bindTuple names _ | .assignTuple names _ => names
  | _ => []

/-- The bookkeeping that has to follow a statement: a variable that is written goes into its cell
and its series, and a series that is made gets the value that the variable has. -/
def Stmt.owed (t : Vars) (s : Stmt) : List Stmt :=
  (s.writes.flatMap fun name => ((t.after s).find? name).elim [] Binding.stores) ++
    match s with
    | .series name _ => [.record name]
    | _ => []

mutual

/-- An expression reads the history only of variables that have a series, and its blocks are in
step. -/
def Expr.InStep (t : Vars) : Expr → Prop
  | .atom _ | .literal _ | .name _ => True
  | .history name offset =>
    (∀ b, t.find? name = some b → b.hasSeries = true) ∧ offset.InStep t
  | .member e _ | .series _ e | .input _ e | .plot _ e | .unary _ e | .paren e => e.InStep t
  | .call callee args => callee.InStep t ∧ exprsInStep t args
  | .binary _ left right => left.InStep t ∧ right.InStep t
  | .ternary cond yes no => cond.InStep t ∧ yes.InStep t ∧ no.InStep t
  | .array elements => exprsInStep t elements
  | .object properties => propertiesInStep t properties
  | .block body => stmtsInStep (t.enter []) body

/-- Expressions in step. -/
def exprsInStep (t : Vars) : List Expr → Prop
  | [] => True
  | e :: es => e.InStep t ∧ exprsInStep t es

/-- Properties in step. -/
def propertiesInStep (t : Vars) : List Property → Prop
  | [] => True
  | .mk _ value :: ps => value.InStep t ∧ propertiesInStep t ps

/-- The expressions and blocks of a statement are in step, and it makes no second series of a
variable. -/
def Stmt.InStep (t : Vars) : Stmt → Prop
  | .series name _ => ∀ b, t.current.find? name = some b → b.hasSeries = false
  | .const _ e | .bind _ e | .bindTuple _ e | .assignTuple _ e | .restore _ _ e | .expr e
  | .ret e => e.InStep t
  | .assign target _ value => target.InStep t ∧ value.InStep t
  | .function _ params body => stmtsInStep (t.enter params) body
  | .ifElse cond yes no => cond.InStep t ∧ stmtsInStep (t.enter []) yes ∧ no.InStep t
  | .block body => stmtsInStep (t.enter []) body
  | .whileLoop cond body => cond.InStep t ∧ stmtsInStep (t.enter []) body
  | .forStep name first _ last _ step body =>
    first.InStep t ∧ last.InStep t ∧ step.InStep t ∧ stmtsInStep (t.enter [name]) body
  | .forEither name _ first last body =>
    first.InStep t ∧ last.InStep t ∧ stmtsInStep (t.enter [name]) body
  | .forOf item collection body => collection.InStep t ∧ stmtsInStep (t.enter [item]) body
  | .forEntries index item collection body =>
    collection.InStep t ∧ stmtsInStep (t.enter [index, item]) body
  | .switch subject cases => subject.InStep t ∧ casesInStep t cases
  | .classDecl _ slots => slotsInStep t slots
  | .bindAll _ | .importLib .. | .cell .. | .carry _ | .store .. | .record _ | .accessor _
  | .retVoid | .brk | .cont | .shim .. | .counter _ | .guard .. => True

/-- Statements in step: each is so by itself where it stands, and the bookkeeping that it needs
follows. -/
def stmtsInStep (t : Vars) : List Stmt → Prop
  | [] => True
  | s :: rest =>
    s.InStep t ∧ (∀ d ∈ s.owed t, d ∈ bookkeeping rest) ∧ stmtsInStep (t.after s) rest

/-- What follows a branch is in step. -/
def Otherwise.InStep (t : Vars) : Otherwise → Prop
  | .nothing => True
  | .block body => stmtsInStep (t.enter []) body
  | .elseIf cond body rest => cond.InStep t ∧ stmtsInStep (t.enter []) body ∧ rest.InStep t

/-- Cases in step. -/
def casesInStep (t : Vars) : List Case → Prop
  | [] => True
  | .test value body :: cases =>
    value.InStep t ∧ stmtsInStep (t.enter []) body ∧ casesInStep t cases
  | .default body :: cases => stmtsInStep (t.enter []) body ∧ casesInStep t cases

/-- Fields in step. -/
def slotsInStep (t : Vars) : List Slot → Prop
  | [] => True
  | .mk _ _ initial :: slots => initial.InStep t ∧ slotsInStep t slots

end

/-! ### Looking up variables -/

namespace Frame

variable {f : Frame} {b : Binding} {name : String}

theorem find?_cons_self : find? (b :: f) b.name = some b := by simp [find?]

theorem find?_cons_of_ne (h : name ≠ b.name) : find? (b :: f) name = f.find? name := by
  simp [find?, Ne.symm h]

theorem add_of_find? {c : Binding} (h : f.find? b.name = some c) : f.add b = f := by
  rw [add, h]
  rfl

theorem add_of_notBound (h : f.find? b.name = none) : f.add b = b :: f := by
  rw [add, h]
  rfl

theorem find?_add_self : (f.add b).find? b.name = some ((f.find? b.name).getD b) := by
  cases h : f.find? b.name with
  | none => rw [add_of_notBound h, find?_cons_self, Option.getD_none]
  | some c => rw [add_of_find? h, h, Option.getD_some]

theorem find?_add_name : (f.add { name }).find? name = some ((f.find? name).getD { name }) :=
  find?_add_self

theorem find?_add_of_ne (h : name ≠ b.name) : (f.add b).find? name = f.find? name := by
  unfold add
  split
  · rfl
  · exact find?_cons_of_ne h

theorem find?_map (g : Binding → Binding) (hg : ∀ c, (g c).name = c.name) :
    find? (f.map g) name = (f.find? name).map g := by
  simp only [find?, List.find?_map, Function.comp_def, hg]

theorem find?_mark : (f.mark name).find? name =
    some { (f.find? name).getD { name } with hasSeries := true } := by
  have hname {c : Binding} (h : c ∈ f.find? name) : c.name = name := by
    simpa using find?_some h
  rw [mark, find?_map _ fun c => by split <;> rfl, find?_add_name, Option.map_some]
  cases h : f.find? name with
  | none => simp
  | some c => simp [hname h]

/-- A series binds a name that is not bound. -/
theorem mark_add : (f.add { name }).mark name = f.mark name := by
  have hadd : (f.add { name }).add { name } = f.add { name } := add_of_find? find?_add_name
  rw [mark, hadd, mark]

theorem find?_mark_of_ne {other : String} (h : other ≠ name) :
    (f.mark name).find? other = f.find? other := by
  have hother {c : Binding} (hc : c ∈ f.find? other) : c.name ≠ name := by
    have hname : c.name = other := by simpa using find?_some hc
    rwa [hname]
  rw [mark, find?_map _ fun c => by split <;> rfl, find?_add_of_ne h]
  cases hf : f.find? other with
  | none => rfl
  | some c => simp [hother hf]

/-- Binding more names does not change a variable. -/
theorem find?_addAll {c : Binding} (h : f.find? name = some c) (names : List String) :
    (f.addAll names).find? name = some c := by
  induction names generalizing f with
  | nil => exact h
  | cons first names ih =>
    have hadd : (f.add { name := first }).find? name = some c := by
      by_cases heq : name = first
      · subst heq
        rw [find?_add_name, h, Option.getD_some]
      · rwa [find?_add_of_ne heq]
    exact ih hadd

theorem isSome_add (b : Binding) (h : (f.find? name).isSome) : ((f.add b).find? name).isSome := by
  by_cases heq : name = b.name
  · subst heq
    rw [find?_add_self]
    rfl
  · rwa [find?_add_of_ne heq]

theorem isSome_addAll {names : List String} (h : name ∈ names) :
    ((f.addAll names).find? name).isSome := by
  induction names generalizing f with
  | nil => cases h
  | cons first names ih =>
    obtain rfl | h := mem_cons.1 h
    · rw [addAll, foldl_cons]
      exact Option.isSome_iff_exists.2 ⟨_, find?_addAll find?_add_name names⟩
    · exact ih h

theorem isSome_mark (other : String) (h : (f.find? name).isSome) :
    ((f.mark other).find? name).isSome := by
  by_cases heq : name = other
  · subst heq
    rw [find?_mark]
    rfl
  · rwa [find?_mark_of_ne heq]

/-- Which of some names are bound, where each is bound before the next is looked up. -/
def known (f : Frame) : List String → List Bool
  | [] => []
  | name :: names => (f.find? name).isSome :: (f.add { name }).known names

theorem length_known (names : List String) : (f.known names).length = names.length := by
  induction names generalizing f with
  | nil => rfl
  | cons name names ih => rw [known, length_cons, length_cons, ih]

/-- A name that was not bound is bound to a variable of which nothing is kept. -/
theorem find?_addAll_of_known {names : List String}
    (h : (name, false) ∈ names.zip (f.known names)) :
    (f.addAll names).find? name = some { name } := by
  induction names generalizing f with
  | nil => cases h
  | cons first names ih =>
    rw [known, zip_cons_cons] at h
    obtain heq | hmem := mem_cons.1 h
    · obtain ⟨rfl, hnone⟩ := Prod.mk.inj heq
      have hunbound : f.find? name = none := by simpa using hnone.symm
      refine find?_addAll ?_ names
      rw [find?_add_name, hunbound, Option.getD_none]
    · exact ih hmem

end Frame

namespace Vars

variable {t : Vars} {b : Binding} {name : String}

theorem find?_of_current (h : t.current.find? name = some b) : t.find? name = some b := by
  rw [find?, findSome?_cons, h]

theorem find?_add_self : (t.add b).find? b.name = some ((t.current.find? b.name).getD b) :=
  find?_of_current Frame.find?_add_self

@[simp]
theorem afterAll_nil : t.afterAll [] = t := rfl

@[simp]
theorem afterAll_cons (s : Stmt) (stmts : List Stmt) :
    t.afterAll (s :: stmts) = (t.after s).afterAll stmts := rfl

@[simp]
theorem afterAll_append (xs ys : List Stmt) :
    t.afterAll (xs ++ ys) = (t.afterAll xs).afterAll ys := foldl_append

/-- A statement binds names in the innermost block only. -/
@[simp]
theorem outer_after (s : Stmt) : (t.after s).outer = t.outer := by cases s <;> rfl

@[simp]
theorem outer_afterAll (stmts : List Stmt) : (t.afterAll stmts).outer = t.outer := by
  induction stmts generalizing t with
  | nil => rfl
  | cons s stmts ih => rw [afterAll_cons, ih, outer_after]

/-- A name stays bound. -/
theorem isSome_after (s : Stmt) (h : (t.current.find? name).isSome) :
    ((t.after s).current.find? name).isSome := by
  obtain ⟨c, hc⟩ := Option.isSome_iff_exists.1 h
  have haddAll (names : List String) : ((t.current.addAll names).find? name).isSome := by
    rw [Frame.find?_addAll hc]
    rfl
  cases s with
  | const | bind | importLib | restore => exact Frame.isSome_add _ h
  | bindTuple | assignTuple => exact haddAll _
  | series => exact Frame.isSome_mark _ h
  | _ => exact h

theorem isSome_afterAll (stmts : List Stmt) (h : (t.current.find? name).isSome) :
    ((t.afterAll stmts).current.find? name).isSome := by
  induction stmts generalizing t with
  | nil => exact h
  | cons s stmts ih => exact ih (isSome_after s h)

/-- A series for a variable of the innermost block leaves what is kept of all variables. -/
theorem stores_subset_mark {c : Binding} (h : t.current.find? name = some c) (other : String)
    (b : Binding) (hb : t.find? other = some b) :
    ∃ b', ({ t with current := t.current.mark name } : Vars).find? other = some b' ∧
      b.stores ⊆ b'.stores := by
  by_cases heq : other = name
  · subst heq
    cases (find?_of_current h).symm.trans hb
    refine ⟨{ c with hasSeries := true }, find?_of_current ?_, ?_⟩
    · rw [Frame.find?_mark, h, Option.getD_some]
    · cases hc : c.cell <;> cases hs : c.hasSeries <;> simp [Binding.stores, hc, hs]
  · refine ⟨b, ?_, List.Subset.refl _⟩
    rw [find?, findSome?_cons] at hb ⊢
    rwa [Frame.find?_mark_of_ne heq]

end Vars

/-! ### Statements behind each other -/

theorem bookkeeping_append {xs : List Stmt} (h : ∀ s ∈ xs, s.isBookkeeping = true)
    (ys : List Stmt) : bookkeeping (xs ++ ys) = xs ++ bookkeeping ys :=
  takeWhile_append_of_pos h

theorem mem_bookkeeping_append {xs : List Stmt} {d : Stmt} (h : d ∈ bookkeeping xs)
    (ys : List Stmt) : d ∈ bookkeeping (xs ++ ys) := by
  unfold bookkeeping at h ⊢
  rw [takeWhile_append]
  split
  · next hall =>
    exact mem_append_left _ (takeWhile_sublist _ |>.subset h)
  · exact h

/-- Statements in step behind statements in step. -/
theorem stmtsInStep_append {t : Vars} {xs ys : List Stmt} (hx : stmtsInStep t xs)
    (hy : stmtsInStep (t.afterAll xs) ys) : stmtsInStep t (xs ++ ys) := by
  induction xs generalizing t with
  | nil => exact hy
  | cons s xs ih =>
    obtain ⟨hs, howed, hx⟩ := hx
    exact ⟨hs, fun d hd => mem_bookkeeping_append (howed d hd) ys, ih hx hy⟩

/-- A statement by itself is in step if no bookkeeping has to follow it. -/
theorem stmtsInStep_singleton {t : Vars} {s : Stmt} (h : s.InStep t) (howed : s.owed t = []) :
    stmtsInStep t [s] :=
  ⟨h, by simp [howed], trivial⟩

theorem Binding.isBookkeeping_stores (b : Binding) : ∀ s ∈ b.stores, s.isBookkeeping = true := by
  unfold stores
  intro s hs
  obtain hs | hs := mem_append.1 hs
  · split at hs
    · cases mem_singleton.1 hs
      rfl
    · cases hs
  · split at hs
    · cases mem_singleton.1 hs
      rfl
    · cases hs

theorem Binding.afterAll_stores (b : Binding) (t : Vars) : t.afterAll b.stores = t := by
  unfold stores
  cases b.cell <;> cases b.hasSeries <;> rfl

/-- The bookkeeping of a variable needs no further bookkeeping. -/
theorem Binding.inStep_stores (b : Binding) (t : Vars) : stmtsInStep t b.stores := by
  unfold stores
  cases b.cell <;> cases b.hasSeries <;>
    simp [stmtsInStep, Stmt.InStep, Stmt.owed, Stmt.writes]

/-- A new series with the current value and its accessor. -/
theorem stmtsInStep_series {t : Vars} {name : String} (key : String)
    (h : ∀ b, t.current.find? name = some b → b.hasSeries = false) :
    stmtsInStep t [.series name key, .record name, .accessor name] := by
  refine ⟨h, fun d hd => ?_, trivial, nofun, trivial, nofun, trivial⟩
  cases mem_singleton.1 hd
  exact mem_cons_self ..

theorem bookkeeping_of_forall {xs : List Stmt} (h : ∀ s ∈ xs, s.isBookkeeping = true) :
    bookkeeping xs = xs := by
  simpa [bookkeeping] using bookkeeping_append h []

theorem exprsInStep_iff {t : Vars} {es : List Expr} :
    exprsInStep t es ↔ ∀ e ∈ es, e.InStep t := by
  induction es with
  | nil => simp [exprsInStep]
  | cons e es ih => simp [exprsInStep, ih]

end Pine.Script
