import Mathlib.Logic.Function.Basic
import Pine.Lowering.Program
import Pine.Proofs.Lowering.Ensures

/-!
# Persistent variables

A persistent variable is an ordinary variable of one bar. What keeps its value from bar to bar is
a cell of the host: the prologue takes the content of the cell over from the previous bar, the
declaration reads it, and every write of the variable is stored in it. A cell holds its value in a
box, so that the values themselves are never taken for an empty cell.

A host runs the prologue on every bar and then any of the statements that declare or assign the
variable, in any order and number. The variable has at every step the value of a static variable:
one that takes the initial value of the first declaration that runs at all and only changes by
assignments.
-/

namespace Pine

open List

variable {V : Type}

/-! ### Hosts -/

namespace Script

/-- What the slot of a cell holds for one bar. -/
inductive Content (V : Type) where
  /-- Nothing was put there. -/
  | undefined
  /-- The mark of a cell that has no value yet. -/
  | null
  /-- A value in an array of its own. -/
  | box (value : V)

namespace Content

/-- The value in the box. -/
def value? : Content V → Option V
  | box v => some v
  | _ => none

/-- `content || null` -/
def orNull : Content V → Content V
  | box v => box v
  | _ => null

/-- `(content ?? [initial])[0]` -/
def orInitial (initial : V) : Content V → V
  | box v => v
  | _ => initial

@[simp]
theorem value?_orNull (c : Content V) : c.orNull.value? = c.value? := by cases c <;> rfl

theorem orInitial_eq_getD (c : Content V) (initial : V) :
    c.orInitial initial = c.value?.getD initial := by
  cases c <;> rfl

end Content

/-- What a script changes on its host. -/
structure Host (V : Type) where
  /-- The slots of a cell, that of the current bar first. -/
  slots : String → List (Content V)
  /-- The variables of the current bar. -/
  vars : String → Option V

namespace Host

variable (h : Host V) (cell name : String)

/-- A host before the first bar. -/
def empty : Host V := ⟨fun _ => [], fun _ => none⟩

/-- The next bar: every cell has a slot for it, and the variables are gone. -/
def nextBar : Host V := ⟨fun cell => .undefined :: h.slots cell, fun _ => none⟩

/-- The content of a cell some bars ago. -/
def get (offset : Nat) : Content V := (h.slots cell).getD offset .undefined

/-- Puts a content into the slot of the current bar. -/
def set (content : Content V) : Host V :=
  { h with slots := Function.update h.slots cell (content :: (h.slots cell).tail) }

/-- Gives a variable a value. -/
def bind (value : V) : Host V := { h with vars := Function.update h.vars name (some value) }

@[simp]
theorem vars_bind (value : V) : (h.bind name value).vars name = some value :=
  Function.update_self ..

@[simp]
theorem vars_set (content : Content V) : (h.set cell content).vars = h.vars := rfl

@[simp]
theorem get_set_zero (content : Content V) : (h.set cell content).get cell 0 = content := by
  simp [get, set]

theorem get_set_ne {other : String} (hne : other ≠ cell) (content : Content V) (offset : Nat) :
    (h.set cell content).get other offset = h.get other offset := by
  simp [get, set, Function.update_of_ne hne]

/-- A write leaves the slots of earlier bars as they are. -/
@[simp]
theorem get_set_succ (other : String) (content : Content V) (offset : Nat) :
    (h.set cell content).get other (offset + 1) = h.get other (offset + 1) := by
  by_cases hne : other = cell
  · subst hne
    cases hs : h.slots other <;> simp [get, set, hs]
  · exact h.get_set_ne cell hne content _

end Host

end Script

/-- The value of a variable after an assignment; what the compound operators compute is left to
`combine`. -/
def AssignOp.apply (combine : AssignOp → V → V → V) : AssignOp → V → V → V
  | .bind, _, new | .set, _, new => new
  | op, old, new => combine op old new

namespace Script.Host

variable (combine : AssignOp → V → V → V) (eval : Expr → V)

/-- What a statement does, where `eval` gives the values of expressions; nothing if it cannot be
run on cells and variables alone. -/
def exec (h : Host V) : Stmt → Option (Host V)
  | .carry cell => some (h.set cell (h.get cell 1).orNull)
  | .restore name cell initial => some (h.bind name ((h.get cell 0).orInitial (eval initial)))
  | .store cell name => (h.vars name).map fun v => h.set cell (.box v)
  | .assign (.name name) op value =>
    (h.vars name).map fun old => h.bind name (op.apply combine old (eval value))
  | .const name value | .bind name value => some (h.bind name (eval value))
  | .cell .. | .series .. | .record _ | .accessor _ | .ret _ => some h
  | _ => none

/-- What statements do one after another. -/
def execAll (stmts : List Stmt) (h : Host V) : Option (Host V) :=
  stmts.foldlM (exec combine eval) h

theorem execAll_cons (s : Stmt) (stmts : List Stmt) (h : Host V) :
    execAll combine eval (s :: stmts) h =
      (h.exec combine eval s).bind (execAll combine eval stmts) :=
  rfl

end Script.Host

namespace Script.Stmt

/-- A statement that leaves the cells and variables alone. -/
def isInert : Stmt → Bool
  | .series .. | .record _ | .accessor _ | .ret _ => true
  | _ => false

/-- A statement of a prologue. -/
def isOpening : Stmt → Bool
  | .const .. | .series .. | .record _ | .accessor _ | .cell .. | .carry _ => true
  | _ => false

end Script.Stmt

/-- Statements that first write a variable, then store it into a cell, and then leave both
alone. -/
def Script.Keeps (cell name : String) (write : Stmt) (code : List Stmt) : Prop :=
  ∃ rest, (∀ s ∈ rest, s.isInert) ∧ code = write :: .store cell name :: rest

theorem Script.Keeps.append_ret {cell name : String} {write : Stmt} {code : List Stmt}
    (h : Keeps cell name write code) (tail : Bool) (e : Expr) :
    Keeps cell name write (code ++ if tail then [.ret e] else []) := by
  obtain ⟨rest, hrest, rfl⟩ := h
  refine ⟨rest ++ if tail then [.ret e] else [], ?_, rfl⟩
  cases tail <;> simpa [or_imp, forall_and, Stmt.isInert] using hrest

namespace Script.Host

variable {combine : AssignOp → V → V → V} {eval : Expr → V}

theorem execAll_inert {stmts : List Stmt} (hs : ∀ s ∈ stmts, s.isInert) (h : Host V) :
    execAll combine eval stmts h = some h := by
  induction stmts with
  | nil => rfl
  | cons s stmts ih =>
    have hone : h.exec combine eval s = some h := by
      have hinert := hs s (mem_cons_self ..)
      cases s with
      | series name key => rfl
      | record name => rfl
      | accessor name => rfl
      | ret value => rfl
      | _ => cases hinert
    rw [execAll_cons, hone]
    exact ih fun s' h' => hs s' (mem_cons_of_mem _ h')

/-- What one statement of a prologue does to a cell. -/
theorem exec_opening (combine : AssignOp → V → V → V) (eval : Expr → V) {s : Stmt}
    (hs : s.isOpening) (h : Host V) (cell : String) :
    ∃ h', h.exec combine eval s = some h' ∧ h'.get cell 1 = h.get cell 1 ∧
      ((s ≠ .carry cell ∧ h'.get cell 0 = h.get cell 0) ∨
        h'.get cell 0 = (h.get cell 1).orNull) := by
  cases s with
  | const name value => exact ⟨_, rfl, rfl, .inl ⟨nofun, rfl⟩⟩
  | series name key => exact ⟨_, rfl, rfl, .inl ⟨nofun, rfl⟩⟩
  | record name => exact ⟨_, rfl, rfl, .inl ⟨nofun, rfl⟩⟩
  | accessor name => exact ⟨_, rfl, rfl, .inl ⟨nofun, rfl⟩⟩
  | cell name key => exact ⟨_, rfl, rfl, .inl ⟨nofun, rfl⟩⟩
  | carry other =>
    refine ⟨_, rfl, h.get_set_succ other cell _ 0, ?_⟩
    by_cases hne : cell = other
    · subst hne
      exact .inr (h.get_set_zero cell _)
    · exact .inl ⟨fun heq => hne (Stmt.carry.inj heq).symm, h.get_set_ne other hne _ 0⟩
  | _ => cases hs

/-- A prologue that takes over a cell leaves in it what the previous bar left there. The cell may
be taken over more than once, since that does not change the previous slot. -/
theorem execAll_opening (combine : AssignOp → V → V → V) (eval : Expr → V) {stmts : List Stmt}
    (hs : ∀ s ∈ stmts, s.isOpening) (h : Host V) (cell : String) :
    ∃ h', execAll combine eval stmts h = some h' ∧ h'.get cell 1 = h.get cell 1 ∧
      ((.carry cell ∉ stmts ∧ h'.get cell 0 = h.get cell 0) ∨
        h'.get cell 0 = (h.get cell 1).orNull) := by
  induction stmts generalizing h with
  | nil => exact ⟨h, rfl, rfl, .inl ⟨not_mem_nil, rfl⟩⟩
  | cons s stmts ih =>
    obtain ⟨h₁, hexec, hlast, hnow⟩ :=
      exec_opening combine eval (hs s (mem_cons_self ..)) h cell
    obtain ⟨h₂, hrun, hlast', hnow'⟩ := ih (fun s' h' => hs s' (mem_cons_of_mem _ h')) h₁
    refine ⟨h₂, by rw [execAll_cons, hexec]; exact hrun, hlast'.trans hlast, ?_⟩
    rw [hlast] at hnow'
    obtain ⟨hnot, hsame⟩ | hcarried := hnow'
    · obtain ⟨hne, hkept⟩ | hcarried := hnow
      · exact .inl ⟨not_mem_cons_of_ne_of_not_mem (Ne.symm hne) hnot, hsame.trans hkept⟩
      · exact .inr (hsame.trans hcarried)
    · exact .inr hcarried

end Script.Host

/-! ### What declarations and assignments are lowered to -/

namespace Lower

open Lowering

variable {env : Context} {s : State}

theorem ensures_afterDeclare_inert (name : String) :
    Ensures (afterDeclare env name) s fun code _ => ∀ x ∈ code, x.isInert ∧ x.isOpening := by
  refine ensures_get ?_
  split
  · refine ensures_bind fun key s' => ensures_modify (ensures_pure ?_)
    simp [Script.Stmt.isInert, Script.Stmt.isOpening]
  · exact ensures_pure (by simp)

/-- The bookkeeping for a persistent variable starts with a store into its cell. -/
theorem keeps_stores {name cell : String} {symbol : Symbol} {write : Script.Stmt}
    (hfind : s.scopes.find? name = some symbol) (hkind : symbol.kind = .persistent)
    (hcell : symbol.cell = some cell) :
    Script.Keeps cell (Script.safeName name) write (write :: stores symbol) := by
  refine ⟨if symbol.hasSeries then [.record symbol.scriptName] else [], ?_, ?_⟩
  · split <;> simp [Script.Stmt.isInert]
  · rw [stores, hkind, hcell, Symbol.scriptName, Scopes.name_of_find? hfind]
    rfl

/-- A declaration of a name that is bound in its scope assigns to it. -/
theorem ensures_declStmts_bound (pos : Pos) (key : Nat) {name : String} (qualifier : String)
    (value : Script.Expr) {symbol : Symbol}
    (hbound : s.scopes.current.find? name = some symbol) :
    Ensures (declStmts env pos key name [] qualifier value) s fun code _ =>
      code = .assign (.name (Script.safeName name)) .set value :: stores symbol := by
  have hdefine (kind : SymbolKind) :
      Ensures (define name kind) s fun existed s' => existed = true ∧ s' = s := by
    refine (ensures_define name kind).mono ?_
    rintro _ _ ⟨rfl, rfl⟩
    rw [hbound, Scopes.define_of_bound hbound]
    exact ⟨rfl, rfl⟩
  have hassign :
      Ensures (do return .assign (.name (Script.safeName name)) .set value :: (← afterAssign name))
        s fun code _ =>
          code = .assign (.name (Script.safeName name)) .set value :: stores symbol := by
    refine (ensures_afterAssign name).bind ?_
    rintro _ _ ⟨rfl, rfl⟩
    rw [Scopes.find?_of_current hbound]
    exact ensures_pure rfl
  by_cases hq : qualifier = ""
  · subst hq
    refine (hdefine .plain).bind ?_
    rintro _ _ ⟨rfl, rfl⟩
    exact hassign
  · rw [declStmts, if_neg (by simp), if_pos hq]
    refine (hdefine .persistent).bind ?_
    rintro _ _ ⟨rfl, rfl⟩
    exact hassign

/-- A persistent declaration of a name that is not bound in its scope restores the variable from
its cell and stores it there. -/
theorem ensures_declStmts_fresh (pos : Pos) (key : Nat) {name qualifier : String}
    (value : Script.Expr) (hq : qualifier ≠ "") (hfresh : s.scopes.current.find? name = none) :
    Ensures (declStmts env pos key name [] qualifier value) s fun code _ =>
      ∃ cell, env.cells.lookup key = some cell ∧
        Script.Keeps cell (Script.safeName name) (.restore (Script.safeName name) cell value)
          code := by
  rw [declStmts, if_neg (by simp), if_pos hq]
  refine (ensures_define name .persistent).bind ?_
  rintro _ _ ⟨rfl, rfl⟩
  rw [hfresh]
  cases hcell : env.cells.lookup key with
  | none => exact ensures_fail pos (.cell name)
  | some cell =>
    refine ensures_modify ((ensures_afterDeclare_inert name).bind fun rest s₂ hrest => ?_)
    exact ensures_pure ⟨cell, rfl, rest, fun x hx => (hrest x hx).1, rfl⟩

/-! ### What a prologue is -/

theorem ensures_sourceStmts_opening (names : List String) :
    Ensures (sourceStmts env names) s fun code _ => ∀ x ∈ code, x.isOpening := by
  induction names generalizing s with
  | nil => exact ensures_pure (by simp)
  | cons name names ih =>
    refine ensures_bind fun _ s₁ => (ensures_afterDeclare_inert name).bind fun series s₂ hs => ?_
    refine ih.bind fun rest s₃ hrest => ensures_pure fun x hx => ?_
    obtain (hx | hx) := mem_append.1 hx
    · obtain (rfl | hx) := mem_cons.1 hx
      · rfl
      · exact (hs x hx).2
    · exact hrest x hx

theorem ensures_historyStmts_opening (names : List String) :
    Ensures (historyStmts env names) s fun code _ => ∀ x ∈ code, x.isOpening := by
  induction names generalizing s with
  | nil => exact ensures_pure (by simp)
  | cons name names ih =>
    refine ensures_bind fun _ s₁ => (ensures_afterDeclare_inert name).bind fun series s₂ hs => ?_
    refine ih.bind fun rest s₃ hrest => ensures_pure fun x hx => ?_
    obtain (hx | hx) := mem_append.1 hx
    · exact (hs x hx).2
    · exact hrest x hx

theorem ensures_cellStmts (pairs : List (Program.Persistent × String)) :
    Ensures (cellStmts pairs) s fun code _ =>
      (∀ x ∈ code, x.isOpening) ∧ ∀ p ∈ pairs, .carry p.2 ∈ code := by
  induction pairs generalizing s with
  | nil => exact ensures_pure (by simp)
  | cons p pairs ih =>
    refine ensures_bind fun key s₁ => ih.bind fun rest s₂ hrest => ensures_pure ⟨?_, ?_⟩
    · simpa [Script.Stmt.isOpening] using hrest.1
    · intro q hq
      obtain (rfl | hq) := mem_cons.1 hq
      · simp
      · exact mem_cons_of_mem _ (mem_cons_of_mem _ (hrest.2 q hq))

/-- A prologue takes over every cell of the program. -/
theorem ensures_prologue (program : Program) :
    Ensures (prologue env program) s fun code _ =>
      (∀ x ∈ code, x.isOpening) ∧
      ∀ key cell, program.cells.lookup key = some cell → .carry cell ∈ code := by
  refine (ensures_sourceStmts_opening _).bind fun first s₁ hfirst => ?_
  refine (ensures_historyStmts_opening _).bind fun second s₂ hsecond => ?_
  refine (ensures_cellStmts _).bind fun third s₃ hthird => ensures_pure ⟨?_, ?_⟩
  · intro x hx
    simp only [mem_append] at hx
    obtain ((hx | hx) | hx) := hx
    · exact hfirst x hx
    · exact hsecond x hx
    · exact hthird.1 x hx
  · intro key cell hlookup
    have hmem : (key, cell) ∈ program.cells := by
      obtain ⟨front, back, hcells, -⟩ := lookup_eq_some_iff.1 hlookup
      simp [hcells]
    rw [Program.cells, zip_map_left, mem_map] at hmem
    obtain ⟨p, hp, heq⟩ := hmem
    obtain ⟨-, rfl⟩ := Prod.mk.inj heq
    exact mem_append_right _ (hthird.2 p hp)

end Lower

namespace Lowering

/-- A persistent declaration with the statements that it is lowered to, at a place where its name
is not bound in the innermost scope. -/
structure StaticVar (env : Context) where
  /-- The position. -/
  pos : Pos
  /-- The key. -/
  key : Nat
  /-- The name. -/
  name : String
  /-- The qualifier. -/
  qualifier : String
  /-- The type. -/
  type : String
  /-- The initial value. -/
  value : Expr
  /-- Whether the declaration returns its value. -/
  tail : Bool
  /-- The state before the declaration. -/
  before : State
  /-- The state after the initial value. -/
  between : State
  /-- The state after the declaration. -/
  after : State
  /-- The initial value in the script. -/
  initial : Script.Expr
  /-- The statements. -/
  code : List Script.Stmt
  isPersistent : qualifier ≠ ""
  value_eq : expr env false value before = .ok initial between
  isFresh : between.scopes.current.find? name = none
  code_eq : stmt env tail (.decl pos key name [] qualifier type value) before = .ok code after

/-- `Assigns env name cell code op value` tells that `code` is what an assignment of a value to the
variable of a name is lowered to, at a place where the name means the persistent variable with a
cell. A declaration of the name in the scope where it is bound is an assignment. -/
inductive Assigns (env : Context) (name cell : String) :
    List Script.Stmt → AssignOp → Script.Expr → Prop
  | assign {p q : Pos} {op : AssignOp} {source : Expr} {tail : Bool} {s s₁ s₂ : State}
      {value : Script.Expr} {code : List Script.Stmt} {symbol : Symbol}
      (hvalue : expr env false source s = .ok value s₁)
      (hfind : s₁.scopes.find? name = some symbol)
      (hkind : symbol.kind = .persistent) (hcell : symbol.cell = some cell)
      (hcode : stmt env tail (.assign p (.name q name) op source) s = .ok code s₂) :
      Assigns env name cell code op value
  | redeclare {p : Pos} {key : Nat} {qualifier type : String} {source : Expr} {tail : Bool}
      {s s₁ s₂ : State} {value : Script.Expr} {code : List Script.Stmt} {symbol : Symbol}
      (hvalue : expr env false source s = .ok value s₁)
      (hfind : s₁.scopes.current.find? name = some symbol)
      (hkind : symbol.kind = .persistent) (hcell : symbol.cell = some cell)
      (hcode : stmt env tail (.decl p key name [] qualifier type source) s = .ok code s₂) :
      Assigns env name cell code .set value

/-- An assignment writes the variable and stores it into the cell. -/
theorem Assigns.keeps {env : Context} {name cell : String} {code : List Script.Stmt}
    {op : AssignOp} {value : Script.Expr} (h : Assigns env name cell code op value) :
    Script.Keeps cell (Script.safeName name) (.assign (.name (Script.safeName name)) op value)
      code := by
  cases h with
  | @assign p q op source tail s s₁ s₂ value code symbol hvalue hfind hkind hcell hcode =>
    refine Lower.Ensures.apply ?_ hcode
    rw [stmt]
    refine (Lower.Ensures.of_eq hvalue).bind ?_
    rintro _ _ ⟨rfl, rfl⟩
    refine (Lower.ensures_afterAssign name).bind ?_
    rintro _ _ ⟨rfl, rfl⟩
    rw [hfind]
    exact Lower.ensures_pure <| (Lower.keeps_stores hfind hkind hcell).append_ret tail
      (.name (Script.safeName name))
  | @redeclare p key qualifier type source tail s s₁ s₂ value code symbol hvalue hbound hkind
      hcell hcode =>
    refine Lower.Ensures.apply ?_ hcode
    rw [stmt]
    refine (Lower.Ensures.of_eq hvalue).bind ?_
    rintro _ _ ⟨rfl, rfl⟩
    refine (Lower.ensures_declStmts_bound p key qualifier _ hbound).bind fun stmts s₃ hstmts => ?_
    subst hstmts
    have hfind := Scopes.find?_of_current hbound
    exact Lower.ensures_pure ((Lower.keeps_stores hfind hkind hcell).append_ret tail _)

namespace StaticVar

variable {env : Context} (x : StaticVar env)

/-- The cell of the variable. -/
def cell : String := (env.cells.lookup x.key).getD ""

/-- The variable in the script. -/
def scriptName : String := Script.safeName x.name

/-- A declaration restores the variable from the cell and stores it there. -/
theorem keeps_code : env.cells.lookup x.key = some x.cell ∧
    Script.Keeps x.cell x.scriptName (.restore x.scriptName x.cell x.initial) x.code := by
  have hstmt : Lower.Ensures
      (stmt env x.tail (.decl x.pos x.key x.name [] x.qualifier x.type x.value)) x.before
      fun code _ => ∃ cell, env.cells.lookup x.key = some cell ∧
        Script.Keeps cell x.scriptName (.restore x.scriptName cell x.initial) code := by
    rw [stmt]
    refine (Lower.Ensures.of_eq x.value_eq).bind ?_
    rintro _ _ ⟨rfl, rfl⟩
    refine (Lower.ensures_declStmts_fresh x.pos x.key _ x.isPersistent x.isFresh).bind ?_
    rintro stmts s₃ ⟨cell, hlookup, hkeeps⟩
    exact Lower.ensures_pure ⟨cell, hlookup, hkeeps.append_ret x.tail _⟩
  obtain ⟨cell, hlookup, hkeeps⟩ := hstmt _ _ x.code_eq
  have hcell : x.cell = cell := by rw [StaticVar.cell, hlookup, Option.getD_some]
  rw [hcell]
  exact ⟨hlookup, hkeeps⟩

/-- An assignment to the variable. -/
structure Assignment where
  /-- The statements. -/
  code : List Script.Stmt
  /-- The operator. -/
  op : AssignOp
  /-- The value. -/
  value : Script.Expr
  assigns : Assigns env x.name x.cell code op value

/-- A run of the declaration or of an assignment, with the values of expressions at that time. -/
inductive Step (V : Type) where
  | declare (eval : Script.Expr → V)
  | assign (a : x.Assignment) (eval : Script.Expr → V)

/-- What a bar runs after the prologue; assignments come after a declaration. -/
structure Bar (V : Type) where
  /-- The values of expressions in the prologue. -/
  eval : Script.Expr → V
  /-- The runs of the declaration and of assignments. -/
  steps : List (x.Step V)
  declared_first : ∀ step ∈ steps.head?, ∃ eval, step = .declare eval

variable {x}

/-- The statements of a step. -/
def Step.code : x.Step V → List Script.Stmt
  | declare _ => x.code
  | assign a _ => a.code

/-- The values of expressions at a step. -/
def Step.eval : x.Step V → Script.Expr → V
  | declare eval | assign _ eval => eval

variable (combine : AssignOp → V → V → V)

/-- What a step does to a static variable: a declaration gives it its initial value if it has no
value yet, and an assignment changes its value. -/
def Step.static (held : Option V) : x.Step V → Option V
  | declare eval => some (held.getD (eval x.initial))
  | assign a eval => held.map (a.op.apply combine · (eval a.value))

/-- A static variable after steps, and its values after each of them. -/
def staticSteps (held : Option V) : List (x.Step V) → Option V × List (Option V)
  | [] => (held, [])
  | step :: steps =>
    let held := step.static combine held
    let (last, values) := staticSteps held steps
    (last, held :: values)

/-- The values of a static variable after each step of each bar. -/
def static (held : Option V) : List (x.Bar V) → List (List (Option V))
  | [] => []
  | bar :: bars =>
    let (last, values) := staticSteps combine held bar.steps
    values :: static last bars

/-- A host after steps, and the values of the variable after each of them. -/
def runSteps (h : Script.Host V) : List (x.Step V) → Option (Script.Host V × List (Option V))
  | [] => some (h, [])
  | step :: steps => do
    let h ← h.execAll combine step.eval step.code
    let (last, values) ← runSteps h steps
    return (last, h.vars x.scriptName :: values)

/-- The values of the variable on a host after each step of each bar. -/
def run (prologue : List Script.Stmt) (h : Script.Host V) :
    List (x.Bar V) → Option (List (List (Option V)))
  | [] => some []
  | bar :: bars => do
    let h ← h.nextBar.execAll combine bar.eval prologue
    let (last, values) ← runSteps combine h bar.steps
    return values :: (← run prologue last bars)

/-! ### The invariant -/

/-- A static variable that has a value has it in the box of the cell. -/
def Holds (x : StaticVar env) (h : Script.Host V) (held : Option V) : Prop :=
  (h.get x.cell 0).value? = held

/-- Writing the variable and storing it leaves its value in the cell. -/
theorem execAll_keeps {code : List Script.Stmt} {write : Script.Stmt} {eval : Script.Expr → V}
    (hcode : Script.Keeps x.cell x.scriptName write code) {h : Script.Host V} {v : V}
    (hwrite : h.exec combine eval write = some (h.bind x.scriptName v)) :
    ∃ h', h.execAll combine eval code = some h' ∧ h'.vars x.scriptName = some v ∧
      x.Holds h' (some v) := by
  obtain ⟨rest, hrest, rfl⟩ := hcode
  refine ⟨(h.bind x.scriptName v).set x.cell (.box v), ?_, ?_, ?_⟩
  · have hstore : (h.bind x.scriptName v).exec combine eval (.store x.cell x.scriptName) =
        some ((h.bind x.scriptName v).set x.cell (.box v)) := by
      simp [Script.Host.exec]
    rw [Script.Host.execAll_cons, hwrite, Option.bind_some, Script.Host.execAll_cons, hstore,
      Option.bind_some, Script.Host.execAll_inert hrest]
  · simp
  · simp [Holds, Script.Content.value?]

/-- A declaration runs as for a static variable, whatever the variable was before. -/
theorem execAll_declare {h : Script.Host V} {held : Option V} (hh : x.Holds h held)
    (eval : Script.Expr → V) :
    ∃ h', h.execAll combine eval x.code = some h' ∧
      h'.vars x.scriptName = some (held.getD (eval x.initial)) ∧
      x.Holds h' (some (held.getD (eval x.initial))) := by
  refine execAll_keeps combine x.keeps_code.2 ?_
  rw [Script.Host.exec, Script.Content.orInitial_eq_getD, hh]

/-- An assignment runs as for a static variable that has a value. -/
theorem execAll_assign {h : Script.Host V} {v : V} (hv : h.vars x.scriptName = some v)
    (a : x.Assignment) (eval : Script.Expr → V) :
    ∃ h', h.execAll combine eval a.code = some h' ∧
      h'.vars x.scriptName = some (a.op.apply combine v (eval a.value)) ∧
      x.Holds h' (some (a.op.apply combine v (eval a.value))) := by
  refine execAll_keeps combine a.assigns.keeps ?_
  change (h.vars x.scriptName).map _ = _
  rw [hv, Option.map_some]
  rfl

/-- Steps after a declaration. -/
theorem runSteps_of_declared (steps : List (x.Step V)) {h : Script.Host V} {v : V}
    (hh : x.Holds h (some v)) (hv : h.vars x.scriptName = some v) :
    ∃ h', runSteps combine h steps = some (h', (staticSteps combine (some v) steps).2) ∧
      x.Holds h' (staticSteps combine (some v) steps).1 := by
  induction steps generalizing h v with
  | nil => exact ⟨h, rfl, hh⟩
  | cons step steps ih =>
    obtain ⟨v', h₁, hstatic, hexec, hv₁, hh₁⟩ : ∃ v' h₁,
        step.static combine (some v) = some v' ∧
        h.execAll combine step.eval step.code = some h₁ ∧
        h₁.vars x.scriptName = some v' ∧ x.Holds h₁ (some v') := by
      cases step with
      | declare eval => exact ⟨_, (execAll_declare combine hh eval).imp fun _ h => ⟨rfl, h⟩⟩
      | assign a eval => exact ⟨_, (execAll_assign combine hv a eval).imp fun _ h => ⟨rfl, h⟩⟩
    obtain ⟨h₂, hrun, hh₂⟩ := ih hh₁ hv₁
    refine ⟨h₂, ?_, ?_⟩
    · simp [runSteps, staticSteps, hexec, hrun, hv₁, hstatic]
    · simpa [staticSteps, hstatic] using hh₂

/-- The steps of a bar. -/
theorem runSteps_bar (bar : x.Bar V) {h : Script.Host V} {held : Option V} (hh : x.Holds h held) :
    ∃ h', runSteps combine h bar.steps = some (h', (staticSteps combine held bar.steps).2) ∧
      x.Holds h' (staticSteps combine held bar.steps).1 := by
  obtain ⟨eval, steps, hfirst⟩ := bar
  cases steps with
  | nil => exact ⟨h, rfl, hh⟩
  | cons step steps =>
    obtain ⟨eval, rfl⟩ := hfirst step rfl
    obtain ⟨h₁, hexec, hv₁, hh₁⟩ := execAll_declare combine hh eval
    obtain ⟨h₂, hrun, hh₂⟩ := runSteps_of_declared combine steps hh₁ hv₁
    refine ⟨h₂, ?_, hh₂⟩
    simp only [runSteps, Step.eval, Step.code, hexec]
    simp [hrun, hv₁, staticSteps, Step.static]

/-- The prologue of a bar. -/
theorem execAll_prologue {program : Program} (hcells : env.cells = program.cells) {s s' : State}
    {code : List Script.Stmt} (hcode : prologue env program s = .ok code s')
    (eval : Script.Expr → V) {h : Script.Host V} {held : Option V} (hh : x.Holds h held) :
    ∃ h', h.nextBar.execAll combine eval code = some h' ∧ x.Holds h' held := by
  obtain ⟨hopening, hcarry⟩ := Lower.ensures_prologue program _ _ hcode
  obtain ⟨h', hexec, -, hnow⟩ :=
    Script.Host.execAll_opening combine eval hopening h.nextBar x.cell
  refine ⟨h', hexec, ?_⟩
  have hmem : .carry x.cell ∈ code := hcarry x.key x.cell (hcells ▸ x.keeps_code.1)
  obtain ⟨hnot, -⟩ | hcarried := hnow
  · exact absurd hmem hnot
  · rw [Holds, hcarried, Script.Content.value?_orNull]
    exact hh

/-- On every bar the variable of a persistent declaration has, after each run of the declaration
or of an assignment, the value of a static variable. -/
theorem run_eq_static {program : Program} (hcells : env.cells = program.cells) {s s' : State}
    {code : List Script.Stmt} (hcode : prologue env program s = .ok code s')
    (bars : List (x.Bar V)) :
    run combine code .empty bars = some (static combine none bars) := by
  suffices hrun : ∀ (h : Script.Host V) (held : Option V), x.Holds h held →
      run combine code h bars = some (static combine held bars) from
    hrun .empty none rfl
  induction bars with
  | nil => exact fun _ _ _ => rfl
  | cons bar bars ih =>
    intro h held hh
    obtain ⟨h₁, hprologue, hh₁⟩ := execAll_prologue combine hcells hcode bar.eval hh
    obtain ⟨h₂, hsteps, hh₂⟩ := runSteps_bar combine bar hh₁
    simp [run, static, hprologue, hsteps, ih h₂ _ hh₂]

/-- A program that declares a persistent variable and assigns to it. -/
def sevenProgram : Program :=
  [.decl ⟨1, 1⟩ 0 "x" [] "var" "" (.number ⟨1, 9⟩ "0"),
    .assign ⟨2, 1⟩ (.name ⟨2, 1⟩ "x") .add (.number ⟨2, 6⟩ "7")]

/-- What the lowering of the program reads. -/
def sevenContext : Context where
  registry := .empty
  indicator := {}
  declarations := .ofProgram sevenProgram
  cells := sevenProgram.cells
  loopLimit := standardLoopLimit

/-- The declaration of the program. -/
def sevenVar : StaticVar sevenContext where
  pos := ⟨1, 1⟩
  key := 0
  name := "x"
  qualifier := "var"
  type := ""
  value := .number ⟨1, 9⟩ "0"
  tail := false
  before := {}
  between := {}
  after := { scopes := { entry := [⟨"x", .persistent, false, some "_var_x"⟩] } }
  initial := .atom "0"
  code := [.restore "x" "_var_x" (.atom "0"), .store "_var_x" "x"]
  isPersistent := by decide
  value_eq := rfl
  isFresh := rfl
  code_eq := rfl

/-- The assignment of the program. -/
def sevenAssignment : sevenVar.Assignment where
  code := [.assign (.name "x") .add (.atom "7"), .store "_var_x" "x"]
  op := .add
  value := .atom "7"
  assigns := by
    have hcode : stmt sevenContext false
        (.assign ⟨2, 1⟩ (.name ⟨2, 1⟩ "x") .add (.number ⟨2, 6⟩ "7")) sevenVar.after =
          .ok [.assign (.name "x") .add (.atom "7"), .store "_var_x" "x"] sevenVar.after :=
      rfl
    exact .assign rfl rfl rfl rfl hcode

/-- A bar that declares and assigns, one that skips both, and one that declares twice. -/
def sevenBars : List (sevenVar.Bar Nat) :=
  [⟨fun _ => 0, [.declare fun _ => 1, .assign sevenAssignment fun _ => 7], by simp⟩,
    ⟨fun _ => 0, [], by simp⟩,
    ⟨fun _ => 0, [.declare fun _ => 5, .declare fun _ => 6], by simp⟩]

theorem run_eq_static_three_bars :
    ∃ code s', prologue sevenContext sevenProgram {} = .ok code s' ∧
      run (fun _ => (· + ·)) code .empty sevenBars =
        some [[some 1, some 8], [], [some 8, some 8]] := by
  have hcode : prologue sevenContext sevenProgram {} =
      .ok [.cell "_var_x" "var:x", .carry "_var_x"] { seriesNames := ["var:x"] } := by
    have hsources : sevenContext.indicator.sortedSources = [] := mergeSort_nil
    have hhistory : sevenContext.indicator.sortedHistory = [] := mergeSort_nil
    rw [prologue, hsources, hhistory]
    rfl
  exact ⟨_, _, hcode, (run_eq_static _ rfl hcode sevenBars).trans rfl⟩

end StaticVar

end Lowering

end Pine
