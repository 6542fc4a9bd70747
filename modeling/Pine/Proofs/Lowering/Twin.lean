import Pine.Lowering.Program
import Pine.Proofs.Script.Brackets
import Pine.Proofs.Tree.Strings

/-!
# Two runs of lowering

Two runs of lowering are compared step by step, one on a tree and one on the same tree with other
strings. Their states are twins: they differ at most in the warnings, which may quote a string.
Their contexts are twins too: they differ at most in the strings of the declarations. Two steps
agree if from twin states both give results that are related, or both fail.

The relation between results says two things. The results are the same up to their strings; and all
names of the first one are identifiers. The second needs no other run, and it follows for a single
run by comparing that run with itself.
-/

namespace Pine

open List

attribute [local simp] Script.Expr.leaves Script.Expr.hollow Script.Stmt.leaves Script.Stmt.hollow

/-! ### Results -/

namespace Script

variable {A : String → Prop} {α : Type}

/-- Two results agree up to their strings, and the leaves of the first are well-spelled. -/
structure Like (leaves : α → List Leaf) (hollow : α → α) (A : String → Prop) (a b : α) : Prop where
  spelled : Spelled A (leaves a)
  hollow : hollow b = hollow a

theorem exprLeaves_eq_flatMap : (es : List Expr) → exprLeaves es = es.flatMap Expr.leaves
  | [] => rfl
  | e :: es => congrArg (e.leaves ++ ·) (exprLeaves_eq_flatMap es)

theorem spelled_exprLeaves {es : List Expr} :
    Spelled A (exprLeaves es) ↔ ∀ e ∈ es, Spelled A e.leaves := by
  simp only [exprLeaves_eq_flatMap, Spelled, mem_flatMap]
  constructor
  · exact fun h e he leaf hl => h leaf ⟨e, he, hl⟩
  · rintro h leaf ⟨e, he, hl⟩
    exact h e he leaf hl

@[simp] theorem exprLeaves_append (es fs : List Expr) :
    exprLeaves (es ++ fs) = exprLeaves es ++ exprLeaves fs := by
  simp only [exprLeaves_eq_flatMap, flatMap_append]

theorem hollowExprs_eq_map : (es : List Expr) → hollowExprs es = es.map Expr.hollow
  | [] => rfl
  | e :: es => congrArg (e.hollow :: ·) (hollowExprs_eq_map es)

@[simp] theorem hollowExprs_append (es fs : List Expr) :
    hollowExprs (es ++ fs) = hollowExprs es ++ hollowExprs fs := by
  simp only [hollowExprs_eq_map, map_append]

@[simp] theorem stmtLeaves_append : (ss ts : List Stmt) →
    stmtLeaves (ss ++ ts) = stmtLeaves ss ++ stmtLeaves ts
  | [], _ => rfl
  | s :: ss, ts => by
    rw [cons_append, stmtLeaves, stmtLeaves, stmtLeaves_append ss ts, append_assoc]

@[simp] theorem hollowStmts_append : (ss ts : List Stmt) →
    hollowStmts (ss ++ ts) = hollowStmts ss ++ hollowStmts ts
  | [], _ => rfl
  | s :: ss, ts => congrArg (s.hollow :: ·) (hollowStmts_append ss ts)

/-! ### Named values and branches -/

/-- The leaves of named values. -/
def namedLeaves (named : List (String × Expr)) : List Leaf :=
  named.flatMap fun (name, value) => .mention (safeMember name) :: value.leaves

/-- Named values with all strings empty. -/
def hollowNamed (named : List (String × Expr)) : List (String × Expr) :=
  named.map fun (name, value) => (name, value.hollow)

/-- The leaves of branches. -/
def branchLeaves (branches : List (Expr × List Stmt)) : List Leaf :=
  branches.flatMap fun (cond, body) => cond.leaves ++ stmtLeaves body

/-- Branches with all strings empty. -/
def hollowBranches (branches : List (Expr × List Stmt)) : List (Expr × List Stmt) :=
  branches.map fun (cond, body) => (cond.hollow, hollowStmts body)

/-- The leaves of a body that need not be there. -/
def lastLeaves (last : Option (List Stmt)) : List Leaf := (last.map stmtLeaves).getD []

variable (A)

/-- Expressions that agree up to their strings. -/
abbrev LikeExpr : Expr → Expr → Prop := Like Expr.leaves Expr.hollow A

/-- Lists of expressions that agree up to their strings. -/
abbrev LikeExprs : List Expr → List Expr → Prop := Like exprLeaves hollowExprs A

/-- Named values that agree up to their strings. -/
abbrev LikeNamed : List (String × Expr) → List (String × Expr) → Prop :=
  Like namedLeaves hollowNamed A

/-- Statements that agree up to their strings. -/
abbrev LikeStmts : List Stmt → List Stmt → Prop := Like stmtLeaves hollowStmts A

/-- Branches that agree up to their strings. -/
abbrev LikeBranches : List (Expr × List Stmt) → List (Expr × List Stmt) → Prop :=
  Like branchLeaves hollowBranches A

/-- Last bodies that agree up to their strings. -/
abbrev LikeLast : Option (List Stmt) → Option (List Stmt) → Prop :=
  Like lastLeaves (Option.map hollowStmts) A

/-- Cases that agree up to their strings. -/
abbrev LikeCases : List Case → List Case → Prop := Like caseLeaves hollowCases A

end Script

namespace Lowering

open Script

variable {A : String → Prop}

theorem hollowExprs_place (slots : List Script.Expr) (i : Nat) (value : Script.Expr) :
    hollowExprs (place slots i value) = place (hollowExprs slots) i value.hollow := by
  simp [place, hollowExprs_eq_map, Expr.undefined]

theorem hollowProperties_map : (named : List (String × Script.Expr)) →
    hollowProperties (named.map fun (name, value) => .mk (safeMember name) value) =
      (hollowNamed named).map fun (name, value) => .mk (safeMember name) value
  | [] => rfl
  | (name, value) :: named =>
    congrArg (Property.mk (safeMember name) value.hollow :: ·) (hollowProperties_map named)

theorem propertyLeaves_map : (named : List (String × Script.Expr)) →
    propertyLeaves (named.map fun (name, value) => .mk (safeMember name) value) = namedLeaves named
  | [] => rfl
  | (name, value) :: named =>
    congrArg (fun ls => Leaf.mention (safeMember name) :: (value.leaves ++ ls))
      (propertyLeaves_map named)

theorem hollowExprs_options (named : List (String × Script.Expr)) :
    hollowExprs (options named) = options (hollowNamed named) := by
  unfold options
  cases named with
  | nil => rfl
  | cons first named =>
    exact congrArg (fun ps => [Script.Expr.object ps]) (hollowProperties_map (first :: named))

theorem spelled_options {named : List (String × Script.Expr)} (h : Spelled A (namedLeaves named)) :
    Spelled A (exprLeaves (options named)) := by
  unfold options
  split
  · exact spelled_nil
  · rw [exprLeaves, Expr.leaves, propertyLeaves_map]
    exact spelled_append.2 ⟨h, spelled_nil⟩

/-- Arranging arguments only moves them. -/
theorem hollowExprs_arrange (params : List String) (positional : List Script.Expr)
    (named extra : List (String × Script.Expr)) :
    hollowExprs (arrange params positional named extra) =
      arrange params (hollowExprs positional) (hollowNamed named) (hollowNamed extra) := by
  unfold arrange
  rw [hollowExprs_append, hollowExprs_options]
  congr 1
  induction named generalizing positional with
  | nil => rfl
  | cons first named ih =>
    rw [foldl_cons, ih, hollowExprs_place]
    rfl

theorem spelled_place {slots : List Script.Expr} (hu : A "undefined")
    (hs : ∀ e ∈ slots, Spelled A e.leaves) (i : Nat) {value : Script.Expr}
    (hv : Spelled A value.leaves) : ∀ e ∈ place slots i value, Spelled A e.leaves := by
  intro e he
  rcases mem_or_eq_of_mem_set he with he | rfl
  · rcases mem_append.1 he with he | he
    · exact hs e he
    · rw [eq_of_mem_replicate he]
      exact spelled_cons.2 ⟨hu, spelled_nil⟩
  · exact hv

theorem spelled_arrange (hu : A "undefined") (params : List String) {positional : List Script.Expr}
    {named extra : List (String × Script.Expr)} (hp : Spelled A (exprLeaves positional))
    (hn : Spelled A (namedLeaves named)) (he : Spelled A (namedLeaves extra)) :
    Spelled A (exprLeaves (arrange params positional named extra)) := by
  rw [arrange, exprLeaves_append, spelled_append]
  refine ⟨?_, spelled_options he⟩
  rw [spelled_exprLeaves] at hp ⊢
  induction named generalizing positional with
  | nil => exact hp
  | cons first named ih =>
    obtain ⟨hfirst, hn⟩ := spelled_append.1 hn
    exact ih (spelled_place hu hp _ (spelled_cons.1 hfirst).2) hn

theorem hollow_builtinCall (b : Builtin) (key : String) (positional : List Script.Expr)
    (named : List (String × Script.Expr)) : (builtinCall b key positional named).hollow =
      builtinCall b "" (hollowExprs positional) (hollowNamed named) := by
  have hcontext : hollowExprs (if b.takesContext then [.name "ctx"] else []) =
      if b.takesContext then [.name "ctx"] else [] := by
    split <;> rfl
  unfold builtinCall
  cases hs : b.takesSeries <;> cases positional
  all_goals simp [hollowExprs, hollowExprs_options, hcontext]

theorem spelled_builtinCall {b : Builtin} (hb : A b.target) (key : String)
    {positional : List Script.Expr} {named : List (String × Script.Expr)}
    (hp : Spelled A (exprLeaves positional)) (hn : Spelled A (namedLeaves named)) :
    Spelled A (builtinCall b key positional named).leaves := by
  have hcontext : Spelled A (exprLeaves (if b.takesContext then [.name "ctx"] else [])) := by
    split
    · have hctx : isIdentifier "ctx" = true := by decide
      exact spelled_cons.2 ⟨hctx, spelled_nil⟩
    · exact spelled_nil
  have hoptions := spelled_options hn
  unfold builtinCall
  cases hs : b.takesSeries <;> cases positional
  all_goals
    simp only [exprLeaves, spelled_append] at hp
    simp [exprLeaves, hoptions, hcontext, Leaf.Spelled, hb, hp]

/-! ### Choices, blocks and declarations -/

theorem hollow_wrap (bare : Bool) (e : Script.Expr) :
    (wrap bare e).hollow = wrap bare e.hollow := by
  cases bare <;> rfl

theorem leaves_wrap (bare : Bool) (e : Script.Expr) : (wrap bare e).leaves = e.leaves := by
  cases bare <;> rfl

theorem hollow_otherwise (last : Option (List Script.Stmt)) :
    (branches : List (Script.Expr × List Script.Stmt)) →
    (otherwise last branches).hollow = otherwise (last.map hollowStmts) (hollowBranches branches)
  | [] => by cases last <;> rfl
  | (cond, body) :: rest =>
    congrArg (Otherwise.elseIf cond.hollow (hollowStmts body)) (hollow_otherwise last rest)

theorem spelled_otherwise {last : Option (List Script.Stmt)} (hl : Spelled A (lastLeaves last)) :
    {branches : List (Script.Expr × List Script.Stmt)} → Spelled A (branchLeaves branches) →
    Spelled A (otherwise last branches).leaves
  | [], _ => by
    cases last with
    | none => exact spelled_nil
    | some body => exact hl
  | (_, _) :: _, h => by
    obtain ⟨hfirst, hrest⟩ := spelled_append.1 h
    exact spelled_append.2 ⟨hfirst, spelled_otherwise hl hrest⟩

theorem hollowStmts_chain (branches : List (Script.Expr × List Script.Stmt))
    (last : Option (List Script.Stmt)) : hollowStmts (chain branches last) =
      chain (hollowBranches branches) (last.map hollowStmts) := by
  cases branches with
  | nil => cases last <;> rfl
  | cons first rest =>
    exact congrArg (fun o => [Script.Stmt.ifElse first.1.hollow (hollowStmts first.2) o])
      (hollow_otherwise last rest)

theorem spelled_chain {branches : List (Script.Expr × List Script.Stmt)}
    {last : Option (List Script.Stmt)} (hb : Spelled A (branchLeaves branches))
    (hl : Spelled A (lastLeaves last)) : Spelled A (stmtLeaves (chain branches last)) := by
  cases branches with
  | nil =>
    cases last with
    | none => exact spelled_nil
    | some body => exact spelled_append.2 ⟨hl, spelled_nil⟩
  | cons first rest =>
    obtain ⟨hfirst, hrest⟩ := spelled_append.1 hb
    exact spelled_append.2 ⟨spelled_append.2 ⟨hfirst, spelled_otherwise hl hrest⟩, spelled_nil⟩

theorem hollow_valueBlock (total : Bool) (body : List Script.Stmt) :
    (valueBlock total body).hollow = valueBlock total (hollowStmts body) := by
  rw [valueBlock, Expr.hollow, hollowStmts_append]
  cases total <;> rfl

theorem spelled_valueBlock (hn : A "NaN") (total : Bool) {body : List Script.Stmt}
    (h : Spelled A (stmtLeaves body)) : Spelled A (valueBlock total body).leaves := by
  rw [valueBlock, Expr.leaves, stmtLeaves_append, spelled_append]
  refine ⟨h, ?_⟩
  cases total with
  | true => exact spelled_nil
  | false => exact spelled_cons.2 ⟨hn, spelled_nil⟩

theorem spelled_binders {names : List String} (h : ∀ n ∈ names, isIdentifier n = true) :
    Spelled A (names.map .binder) := by
  intro leaf hl
  obtain ⟨n, hn, rfl⟩ := mem_map.1 hl
  exact h n hn

theorem isIdentifier_map_safeName {names : List String} (h : ∀ n ∈ names, isIdentifier n = true) :
    ∀ n ∈ names.map safeName, isIdentifier n = true := by
  intro n hn
  obtain ⟨m, hm, rfl⟩ := mem_map.1 hn
  exact isIdentifier_safeName (h m hm)

theorem hollowStmts_tupleStmts (names : List String) (existed : List Bool) (value : Script.Expr) :
    hollowStmts (tupleStmts names existed value) = tupleStmts names existed value.hollow := by
  unfold tupleStmts
  dsimp only
  split
  · split <;> rfl
  · rfl

theorem spelled_tupleStmts {names : List String} (h : ∀ n ∈ names, isIdentifier n = true)
    (existed : List Bool) {value : Script.Expr} (hv : Spelled A value.leaves) :
    Spelled A (stmtLeaves (tupleStmts names existed value)) := by
  have htargets := isIdentifier_map_safeName h
  have hfresh : ∀ n ∈ (((names.map safeName).zip existed).filter (!·.2)).map Prod.fst,
      isIdentifier n = true := by
    intro n hn
    obtain ⟨⟨m, b⟩, hm, rfl⟩ := mem_map.1 hn
    exact htargets m (of_mem_zip (mem_filter.1 hm).1).1
  unfold tupleStmts
  dsimp only
  split
  · rw [stmtLeaves_append, spelled_append]
    refine ⟨?_, ?_⟩
    · split
      · exact spelled_nil
      · exact spelled_append.2 ⟨spelled_binders hfresh, spelled_nil⟩
    · exact spelled_append.2 ⟨spelled_append.2 ⟨spelled_binders htargets, hv⟩, spelled_nil⟩
  · exact spelled_append.2 ⟨spelled_append.2 ⟨spelled_binders htargets, hv⟩, spelled_nil⟩

theorem spelled_declaredValue {name : String} {names : List String}
    (h : ∀ n ∈ Stmt.declared name names, isIdentifier n = true) :
    Spelled A (declaredValue name names).leaves := by
  unfold declaredValue
  unfold Stmt.declared at h
  split at h
  · next hn =>
    rw [if_pos hn]
    exact spelled_cons.2 ⟨isIdentifier_safeName (h name (by simp)), spelled_nil⟩
  · next hn =>
    rw [if_neg hn, Expr.leaves, spelled_exprLeaves]
    intro e he
    obtain ⟨n, hmem, rfl⟩ := mem_map.1 he
    exact spelled_cons.2 ⟨isIdentifier_safeName (h n hmem), spelled_nil⟩

theorem hollow_declaredValue (name : String) (names : List String) :
    (declaredValue name names).hollow = declaredValue name names := by
  unfold declaredValue
  split
  · rfl
  · simp [hollowExprs_eq_map]

end Lowering

/-! ### Twin states and contexts -/

/-- The names of a symbol are identifiers. -/
def Symbol.Spelled (s : Symbol) : Prop :=
  Script.isIdentifier s.name = true ∧ ∀ cell ∈ s.cell, Script.isIdentifier cell = true

theorem Lower.spelled_stores {A : String → Prop} {s : Symbol} (h : s.Spelled) :
    Script.Spelled A (Script.stmtLeaves (Lower.stores s)) := by
  have hname : Script.isIdentifier s.scriptName = true := Script.isIdentifier_safeName h.1
  rw [Lower.stores, Script.stmtLeaves_append, Script.spelled_append]
  refine ⟨?_, ?_⟩
  · split
    · next cell _ hcell =>
      exact Script.spelled_cons.2 ⟨h.2 cell hcell,
        Script.spelled_cons.2 ⟨hname, Script.spelled_nil⟩⟩
    · exact Script.spelled_nil
  · split
    · exact Script.spelled_cons.2 ⟨Script.isIdentifier_seriesName hname,
        Script.spelled_cons.2 ⟨hname, Script.spelled_nil⟩⟩
    · exact Script.spelled_nil

namespace Scopes

/-- The names of all symbols in scope are identifiers. -/
def Spelled (s : Scopes) : Prop := ∀ scope ∈ s.toList, ∀ symbol ∈ scope, symbol.Spelled

variable {s : Scopes}

theorem spelled_iff : s.Spelled ↔
    (∀ scope ∈ s.inner, ∀ symbol ∈ scope, symbol.Spelled) ∧ ∀ symbol ∈ s.entry, symbol.Spelled := by
  simp [Spelled, toList, or_imp, forall_and]

theorem Spelled.enter (h : s.Spelled) : s.enter.Spelled := by
  rw [spelled_iff] at h ⊢
  exact ⟨forall_mem_cons.2 ⟨by simp, h.1⟩, h.2⟩

theorem Spelled.leave (h : s.Spelled) : s.leave.Spelled := by
  rw [spelled_iff] at h ⊢
  exact ⟨fun scope hs => h.1 scope (mem_of_mem_tail hs), h.2⟩

theorem Spelled.define (h : s.Spelled) {name : String} (hn : Script.isIdentifier name = true)
    (kind : SymbolKind) : (s.define name kind).Spelled := by
  have hsymbol : Symbol.Spelled { name, kind } := ⟨hn, by simp⟩
  unfold Scopes.define
  split
  · exact h
  · rw [spelled_iff] at h ⊢
    unfold add
    split
    · next hi => exact ⟨by simp [hi], forall_mem_cons.2 ⟨hsymbol, h.2⟩⟩
    · next scope inner hi =>
      rw [hi] at h
      obtain ⟨hscope, hinner⟩ := forall_mem_cons.1 h.1
      exact ⟨forall_mem_cons.2 ⟨forall_mem_cons.2 ⟨hsymbol, hscope⟩, hinner⟩, h.2⟩

theorem spelled_find? (h : s.Spelled) {name : String} {symbol : Symbol}
    (hs : s.find? name = some symbol) : symbol.Spelled := by
  obtain ⟨scope, hscope, hfound⟩ := exists_of_findSome?_eq_some hs
  exact h scope hscope symbol (mem_of_find?_eq_some hfound)

theorem spelled_updateScope {scope : Scope} {f : Symbol → Symbol}
    (hf : ∀ symbol : Symbol, symbol.Spelled → (f symbol).Spelled)
    (h : ∀ symbol ∈ scope, symbol.Spelled) (name : String) :
    ∀ symbol ∈ scope.update name f, symbol.Spelled := by
  intro symbol hs
  obtain ⟨t, ht, rfl⟩ := mem_map.1 hs
  split
  · exact hf t (h t ht)
  · exact h t ht

theorem spelled_updateFirst {f : Symbol → Symbol}
    (hf : ∀ symbol : Symbol, symbol.Spelled → (f symbol).Spelled) (name : String) :
    {scopes scopes' : List Scope} → updateFirst name f scopes = some scopes' →
    (∀ scope ∈ scopes, ∀ symbol ∈ scope, symbol.Spelled) →
    ∀ scope ∈ scopes', ∀ symbol ∈ scope, symbol.Spelled
  | scope :: scopes, scopes', h, hs => by
    obtain ⟨hscope, hs⟩ := forall_mem_cons.1 hs
    unfold updateFirst at h
    split at h
    · cases h
      exact forall_mem_cons.2 ⟨spelled_updateScope hf hscope name, hs⟩
    · obtain ⟨rest, hrest, rfl⟩ := Option.map_eq_some_iff.1 h
      exact forall_mem_cons.2 ⟨hscope, spelled_updateFirst hf name hrest hs⟩

theorem Spelled.update (h : s.Spelled) {f : Symbol → Symbol}
    (hf : ∀ symbol : Symbol, symbol.Spelled → (f symbol).Spelled) (name : String) :
    (s.update name f).Spelled := by
  rw [spelled_iff] at h ⊢
  unfold Scopes.update
  split
  · next inner hi => exact ⟨spelled_updateFirst hf name hi h.1, h.2⟩
  · exact ⟨h.1, spelled_updateScope hf h.2 name⟩

end Scopes

namespace Lowering

/-- States that differ at most in their warnings, with identifiers in scope. -/
structure State.Twin (s t : State) : Prop where
  spelled : s.scopes.Spelled
  scopes : t.scopes = s.scopes
  loops : t.loops = s.loops
  switches : t.switches = s.switches
  seriesNames : t.seriesNames = s.seriesNames

end Lowering

/-- A function with changed strings. -/
def Function.reword (r : Rewording) (f : Function) : Function :=
  { f with decl := f.decl.reword r }

/-- A type with changed strings. -/
def Record.reword (r : Rewording) (record : Record) : Record :=
  { record with decl := record.decl.reword r }

namespace Lowering

/-- Contexts that differ at most in the strings of their declarations and in those parts of the
description that lowering does not read; and with identifiers for names, and texts with the
property `A` for the targets of builtins. -/
structure Context.Twin (A : String → Prop) (r : Rewording) (env env' : Context) : Prop where
  registry : env'.registry = env.registry
  sources : env'.indicator.sources = env.indicator.sources
  history : env'.indicator.history = env.indicator.history
  inputIds : env'.indicator.inputIds = env.indicator.inputIds
  plotIds : env'.indicator.plotIds = env.indicator.plotIds
  functions : env'.declarations.functions = env.declarations.functions.map (Function.reword r)
  records : env'.declarations.records = env.declarations.records.map (Record.reword r)
  cells : env'.cells = env.cells
  loopLimit : env'.loopLimit = env.loopLimit
  plain : ∀ text, Script.Plain text → A text
  target : ∀ name b, env.registry.find? name = some b → A b.target
  functionName : ∀ g ∈ env.declarations.functions, Script.isIdentifier g.name = true
  recordName : ∀ r ∈ env.declarations.records, Script.isIdentifier r.name = true
  cell : ∀ key cell, env.cells.lookup key = some cell → Script.isIdentifier cell = true

end Lowering

/-! ### Steps that agree -/

namespace Lower

open Lowering Script

variable {α β : Type} {R : α → α → Prop} {S : β → β → Prop} {A : String → Prop}

/-- From twin states two steps both give results that are related, and twin states, or both fail. -/
def Both (R : α → α → Prop) (x y : Lower α) : Prop :=
  ∀ s t : State, s.Twin t → match x s, y t with
    | .ok a s', .ok b t' => R a b ∧ s'.Twin t'
    | .error _ _, .error _ _ => True
    | _, _ => False

theorem both_pure {a b : α} (h : R a b) : Both R (pure a) (pure b) := fun _ _ hst => ⟨h, hst⟩

theorem both_fail (p q : Pos) (gap gap' : Gap) : Both R (fail p gap) (fail q gap') :=
  fun _ _ _ => trivial

theorem both_get : Both State.Twin get get := fun _ _ hst => ⟨hst, hst⟩

theorem both_modify {g h : State → State} (hgh : ∀ s t : State, s.Twin t → (g s).Twin (h t)) :
    Both (fun _ _ => True) (modify g) (modify h) :=
  fun s t hst => ⟨trivial, hgh s t hst⟩

theorem Both.bind {x y : Lower α} {g h : α → Lower β} (hxy : Both R x y)
    (hgh : ∀ a b, R a b → Both S (g a) (h b)) : Both S (x >>= g) (y >>= h) := by
  intro s t hst
  have hboth := hxy s t hst
  change match EStateM.bind x g s, EStateM.bind y h t with
    | .ok a s', .ok b t' => S a b ∧ s'.Twin t'
    | .error _ _, .error _ _ => True
    | _, _ => False
  rw [EStateM.bind, EStateM.bind]
  cases hx : x s with
  | ok a s' =>
    cases hy : y t with
    | ok b t' =>
      rw [hx, hy] at hboth
      exact hgh a b hboth.1 s' t' hboth.2
    | error e t' =>
      rw [hx, hy] at hboth
      exact hboth.elim
  | error e s' =>
    cases hy : y t with
    | ok b t' =>
      rw [hx, hy] at hboth
      exact hboth.elim
    | error e' t' => exact trivial

/-- If the first of two steps that agree gives a result, so does the second. -/
theorem Both.of_ok {x y : Lower α} (h : Both R x y) {s t s' : State} (hst : s.Twin t) {a : α}
    (hx : x s = .ok a s') : ∃ b t', y t = .ok b t' ∧ R a b := by
  have hboth := h s t hst
  rw [hx] at hboth
  cases hy : y t with
  | ok b t' =>
    rw [hy] at hboth
    exact ⟨b, t', rfl, hboth.1⟩
  | error e t' =>
    rw [hy] at hboth
    exact hboth.elim

theorem Both.inScope {x y : Lower α} (h : Both R x y) : Both R (inScope x) (inScope y) := by
  refine (both_modify fun s t hst => ?_).bind fun _ _ _ => h.bind fun a b hab =>
    (both_modify fun s t hst => ?_).bind fun _ _ _ => both_pure hab
  · exact { hst with spelled := hst.spelled.enter, scopes := congrArg Scopes.enter hst.scopes }
  · exact { hst with spelled := hst.spelled.leave, scopes := congrArg Scopes.leave hst.scopes }

theorem both_warn (severity severity' : Severity) (feature feature' : String) (line line' : Int)
    (message message' : String) : Both (fun _ _ => True) (warn severity feature line message)
      (warn severity' feature' line' message') :=
  both_modify fun _ _ hst => { hst with }

theorem both_find? (name : String) : Both (fun o o' => o' = o ∧ ∀ s ∈ o, s.Spelled) (find? name)
    (find? name) := by
  refine both_get.bind fun s t hst => both_pure ⟨by rw [hst.scopes], fun symbol h => ?_⟩
  exact Scopes.spelled_find? hst.spelled h

theorem both_define {name : String} (hn : isIdentifier name = true) (kind : SymbolKind) :
    Both Eq (define name kind) (define name kind) := by
  refine both_get.bind fun s t hst => (both_modify fun s' t' hst' => ?_).bind fun _ _ _ =>
    both_pure (by rw [hst.scopes])
  exact { hst' with
    spelled := hst'.spelled.define hn kind
    scopes := congrArg (Scopes.define · name kind) hst'.scopes }

theorem both_defineAll (kind : SymbolKind) : {names : List String} →
    (∀ n ∈ names, isIdentifier n = true) → Both Eq (defineAll kind names) (defineAll kind names)
  | [], _ => both_pure rfl
  | name :: names, h => by
    obtain ⟨hn, hns⟩ := forall_mem_cons.1 h
    exact (both_define hn kind).bind fun _ _ he => (both_defineAll kind hns).bind fun _ _ hes =>
      both_pure (by rw [he, hes])

theorem both_updateSymbol (name : String) {f : Symbol → Symbol}
    (hf : ∀ symbol : Symbol, symbol.Spelled → (f symbol).Spelled) :
    Both (fun _ _ => True) (updateSymbol name f) (updateSymbol name f) :=
  both_modify fun _ _ hst => { hst with
    spelled := hst.spelled.update hf name
    scopes := congrArg (Scopes.update · name f) hst.scopes }

theorem both_freshLoop : Both Eq freshLoop freshLoop := by
  refine both_get.bind fun s t hst => (both_modify fun s' t' hst' => ?_).bind fun _ _ _ =>
    both_pure (by rw [hst.loops])
  exact { hst' with loops := congrArg (· + 1) hst.loops }

theorem both_freshSwitch : Both Eq freshSwitch freshSwitch := by
  refine both_get.bind fun s t hst => (both_modify fun s' t' hst' => ?_).bind fun _ _ _ =>
    both_pure (by rw [hst.switches])
  exact { hst' with switches := congrArg (· + 1) hst.switches }

theorem both_seriesKey (name : String) : Both Eq (seriesKey name) (seriesKey name) := by
  refine both_get.bind fun s t hst => (both_modify fun s' t' hst' => ?_).bind fun _ _ _ =>
    both_pure (by rw [hst.seriesNames])
  exact { hst' with seriesNames := congrArg (name :: ·) hst'.seriesNames }

/-! ### After declarations and assignments -/

variable {r : Rewording} {env env' : Context}

theorem both_seriesBinding {name : String} (hn : isIdentifier name = true) :
    Both (LikeStmts A) (seriesBinding name) (seriesBinding name) := by
  have hsafe := isIdentifier_safeName hn
  refine (both_seriesKey name).bind fun key _ hkey => ?_
  subst hkey
  have hseries (symbol : Symbol) (h : symbol.Spelled) :
      Symbol.Spelled { symbol with hasSeries := true } := h
  refine (both_updateSymbol name hseries).bind fun _ _ _ => both_pure ⟨?_, rfl⟩
  have hoffset : isIdentifier "offset" = true := by decide
  simp [stmtLeaves, Leaf.Spelled, isIdentifier_seriesName hsafe, isIdentifier_historyName hsafe,
    hsafe, hoffset]

theorem both_afterDeclare (h : env.Twin A r env') {name : String}
    (hn : isIdentifier name = true) :
    Both (LikeStmts A) (afterDeclare env name) (afterDeclare env' name) := by
  refine (both_find? name).bind fun o _ ho => ?_
  rw [ho.1]
  dsimp only
  rw [h.history]
  split
  · exact both_seriesBinding hn
  · exact both_pure ⟨spelled_nil, rfl⟩

theorem both_afterDeclareAll (h : env.Twin A r env') : {names : List String} →
    (∀ n ∈ names, isIdentifier n = true) →
    Both (LikeStmts A) (afterDeclareAll env names) (afterDeclareAll env' names)
  | [], _ => both_pure ⟨spelled_nil, rfl⟩
  | name :: names, hn => by
    obtain ⟨hn, hns⟩ := forall_mem_cons.1 hn
    refine (both_afterDeclare h hn).bind fun _ _ h₁ => ?_
    refine (both_afterDeclareAll h hns).bind fun _ _ h₂ => both_pure ⟨?_, ?_⟩
    · simp [h₁.spelled, h₂.spelled]
    · simp [h₁.hollow, h₂.hollow]

theorem both_afterAssign (name : String) :
    Both (LikeStmts A) (afterAssign name) (afterAssign name) := by
  refine (both_find? name).bind fun o _ ho => ?_
  rw [ho.1]
  refine both_pure ⟨?_, rfl⟩
  cases o with
  | none => exact spelled_nil
  | some symbol => exact spelled_stores (ho.2 symbol rfl)

end Lower

end Pine
