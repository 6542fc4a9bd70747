import Pine.Proofs.Indicator.Strings
import Pine.Proofs.Lowering.Strings

/-!
# Lowering programs with other strings

A program and the program with other strings declare the same functions and types, bind the same
names, and have the same cells. So their contexts are twins, and their scripts agree up to strings:
the prologues, which read no string, and the statements.
-/

namespace Pine

open Script List

variable {A : String → Prop} {r : Rewording}

/-! ### Declarations -/

namespace Declarations

/-- Declarations with changed strings. -/
def reword (r : Rewording) (d : Declarations) : Declarations :=
  ⟨d.functions.map (Function.reword r), d.records.map (Record.reword r)⟩

theorem declaredBy_reword : (s : Stmt) → declaredBy (s.reword r) = (declaredBy s).reword r
  | .exported _ decl => declaredBy_reword decl
  | .missing | .decl .. | .assign .. | .func .. | .ifElse .. | .whileLoop .. | .forCount ..
  | .forIn .. | .ret .. | .brk .. | .cont .. | .switch .. | .typeDecl .. | .importLib ..
  | .expr .. => rfl

theorem add_reword (d : Declarations) (s : Stmt) :
    (d.reword r).add (s.reword r) = (d.add s).reword r := by
  cases s with
  | func p name params body isMethod =>
    simp only [reword, add, Stmt.reword, map_cons, filter_map]
    rfl
  | typeDecl p name fields =>
    simp only [reword, add, Stmt.reword, map_cons, filter_map, map_name_rewordFields]
    rfl
  | _ => rfl

/-- The declarations of a program with other strings. -/
theorem ofProgram_reword (program : Program) :
    ofProgram (rewordStmts r program) = (ofProgram program).reword r := by
  have hfold (ss : List Stmt) (d : Declarations) :
      (rewordStmts r ss).foldl (fun d s => d.add (declaredBy s)) (d.reword r) =
        (ss.foldl (fun d s => d.add (declaredBy s)) d).reword r := by
    induction ss generalizing d with
    | nil => rfl
    | cons s ss ih =>
      rw [rewordStmts, foldl_cons, foldl_cons, declaredBy_reword, add_reword]
      exact ih _
  exact hfold program {}

/-- The names of functions and types are identifiers. -/
def Spelled (d : Declarations) : Prop :=
  (∀ f ∈ d.functions, isIdentifier f.name = true) ∧ ∀ t ∈ d.records, isIdentifier t.name = true

theorem named_declaredBy {L : String → String → Prop} : (s : Stmt) → s.Named L →
    (declaredBy s).Named L
  | .exported _ decl, h => named_declaredBy decl (each_listed.1 h).2
  | .missing, h | .decl .., h | .assign .., h | .func .., h | .ifElse .., h | .whileLoop .., h
  | .forCount .., h | .forIn .., h | .ret .., h | .brk .., h | .cont .., h | .switch .., h
  | .typeDecl .., h | .importLib .., h | .expr .., h => h

theorem Spelled.add {L : String → String → Prop} {d : Declarations} (h : d.Spelled) {s : Stmt}
    (hs : s.Named L) : (d.add s).Spelled := by
  cases s with
  | func p name params body isMethod =>
    refine ⟨forall_mem_cons.2 ⟨isIdentifier_of_isNameShaped (each_listed.1 hs).1.1, ?_⟩, h.2⟩
    exact fun f hf => h.1 f (mem_filter.1 hf).1
  | typeDecl p name fields =>
    refine ⟨h.1, forall_mem_cons.2 ⟨isIdentifier_of_isNameShaped (each_listed.1 hs).1.1, ?_⟩⟩
    exact fun t ht => h.2 t (mem_filter.1 ht).1
  | _ => exact h

theorem spelled_ofProgram {L : String → String → Prop} {program : Program}
    (h : NamedStmts L program) : (ofProgram program).Spelled := by
  have hfold (ss : List Stmt) (hs : ∀ s ∈ ss, s.Named L) (d : Declarations) (hd : d.Spelled) :
      (ss.foldl (fun d s => d.add (declaredBy s)) d).Spelled := by
    induction ss generalizing d with
    | nil => exact hd
    | cons s ss ih =>
      obtain ⟨hs, hss⟩ := forall_mem_cons.1 hs
      exact ih hss _ (hd.add (named_declaredBy s hs))
  exact hfold program (each_stmts.1 h) {} ⟨by simp, by simp⟩

end Declarations

/-! ### Names that a program binds -/

namespace Program

theorem topLevelNames_reword (program : Program) :
    topLevelNames (rewordStmts r program) = program.topLevelNames := by
  rw [topLevelNames, rewordStmts_eq_map, flatMap_map]
  congr 1
  funext s
  cases s with
  | exported p decl => cases decl <;> rfl
  | _ => rfl

theorem declaredNames_reword (program : Program) :
    declaredNames (rewordStmts r program) = program.declaredNames := by
  rw [declaredNames, nodes_reword, flatMap_map]
  congr 1
  funext n
  cases n with
  | program _ => rfl
  | expr e => rfl
  | stmt s => cases s <;> rfl

theorem persistents_reword (program : Program) :
    persistents (rewordStmts r program) = program.persistents := by
  rw [persistents, nodes_reword, filterMap_map]
  congr 1
  funext n
  cases n with
  | program _ => rfl
  | expr e => rfl
  | stmt s =>
    cases s with
    | decl p key name names qualifier type value => cases names <;> rfl
    | _ => rfl

theorem cells_reword (program : Program) : cells (rewordStmts r program) = program.cells := by
  rw [cells, persistents_reword, cells]

theorem isNameShaped_persistents {L : String → String → Prop} {program : Program}
    (h : NamedStmts L program) : ∀ d ∈ program.persistents, isNameShaped d.name = true := by
  intro d hd
  obtain ⟨n, hn, hd⟩ := mem_filterMap.1 hd
  have hnamed := h n hn
  split at hd
  · next name qualifier _ _ =>
    split at hd
    · cases hd
    · cases hd
      exact hnamed name (by simp [Stmt.declared])
  · cases hd

theorem isIdentifier_cellNames : {ds : List Persistent} →
    (∀ d ∈ ds, isNameShaped d.name = true) → (earlier : List String) →
    ∀ cell ∈ cellNames earlier ds, isIdentifier cell = true
  | [], _, _ => by simp [cellNames]
  | d :: ds, h, earlier => by
    obtain ⟨hd, hds⟩ := forall_mem_cons.1 h
    have hcell := isIdentifier_cellName (isIdentifier_safeName (isIdentifier_of_isNameShaped hd))
    refine forall_mem_cons.2 ⟨?_, isIdentifier_cellNames hds _⟩
    split
    · exact hcell
    · refine isIdentifier_append ?_ fun _ => isIdentifierPart_of_mem_toString _
      exact isIdentifier_append_isIdentifier hcell (by decide)

end Program

/-! ### Contexts -/

theorem mem_of_lookup {α β : Type} [BEq α] [LawfulBEq α] {l : List (α × β)} {k : α} {v : β}
    (h : l.lookup k = some v) : (k, v) ∈ l := by
  obtain ⟨front, back, rfl, -⟩ := lookup_eq_some_iff.1 h
  simp

namespace Lowering

open Lower

variable {env env' : Context}

/-- The context of a program with its description. -/
def Context.ofProgram (options : Options) (indicator : Indicator) (program : Program) : Context :=
  { registry := options.registry
    indicator
    declarations := .ofProgram program
    cells := program.cells
    loopLimit := if options.loopLimit = 0 then standardLoopLimit else options.loopLimit }

/-- The contexts of a program and of the program with other strings. -/
theorem Context.twin_ofProgram {L : String → String → Prop} {program : Program}
    (h : NamedStmts L program) {i j : Indicator} (hij : i.Twin j) (options : Options)
    (hplain : ∀ text, Plain text → A text)
    (ht : ∀ name b, options.registry.find? name = some b → A b.target) :
    (Context.ofProgram options i program).Twin A r
      (Context.ofProgram options j (rewordStmts r program)) where
  registry := rfl
  sources := hij.sources
  history := hij.history
  inputIds := hij.inputIds
  plotIds := hij.plotIds
  functions := congrArg Declarations.functions (Declarations.ofProgram_reword program)
  records := congrArg Declarations.records (Declarations.ofProgram_reword program)
  cells := program.cells_reword
  loopLimit := rfl
  plain := hplain
  target := ht
  functionName := (Declarations.spelled_ofProgram h).1
  recordName := (Declarations.spelled_ofProgram h).2
  cell := by
    intro key cell hc
    exact Program.isIdentifier_cellNames (Program.isNameShaped_persistents h) [] cell
      (of_mem_zip (mem_of_lookup hc)).2

/-! ### Prologues -/

theorem plain_sourceText {name : String} (h : isIdentifier name = true) :
    Plain (sourceText name) := by
  unfold sourceText
  split
  case h_6 => exact Plain.append (by decide) (plain_of_isIdentifier h)
  all_goals decide

theorem sourceStmts_both (h : env.Twin A r env') : {names : List String} →
    (∀ n ∈ names, isIdentifier n = true) →
    Both (LikeStmts A) (sourceStmts env names) (sourceStmts env' names)
  | [], _ => both_pure ⟨spelled_nil, rfl⟩
  | name :: names, hn => by
    obtain ⟨hn, hns⟩ := forall_mem_cons.1 hn
    refine (both_define hn .plain).bind fun _ _ _ => (both_afterDeclare h hn).bind fun _ _ h₁ =>
      (sourceStmts_both h hns).bind fun _ _ h₂ => both_pure ⟨?_, ?_⟩
    · have htext : A (sourceText name) := h.plain _ (plain_sourceText hn)
      simp [stmtLeaves, Stmt.leaves, Expr.leaves, Leaf.Spelled, isIdentifier_safeName hn, htext,
        h₁.spelled, h₂.spelled]
    · simp [hollowStmts, h₁.hollow, h₂.hollow]

theorem historyStmts_both (h : env.Twin A r env') : {names : List String} →
    (∀ n ∈ names, isIdentifier n = true) →
    Both (LikeStmts A) (historyStmts env names) (historyStmts env' names)
  | [], _ => both_pure ⟨spelled_nil, rfl⟩
  | name :: names, hn => by
    obtain ⟨hn, hns⟩ := forall_mem_cons.1 hn
    refine (both_define hn .plain).bind fun _ _ _ => (both_afterDeclare h hn).bind fun _ _ h₁ =>
      (historyStmts_both h hns).bind fun _ _ h₂ => both_pure ⟨?_, ?_⟩
    · simp [h₁.spelled, h₂.spelled]
    · simp [h₁.hollow, h₂.hollow]

theorem cellStmts_both : {cells : List (Program.Persistent × String)} →
    (∀ c ∈ cells, isIdentifier c.2 = true) →
    Both (LikeStmts A) (cellStmts cells) (cellStmts cells)
  | [], _ => both_pure ⟨spelled_nil, rfl⟩
  | (d, cell) :: rest, hc => by
    obtain ⟨hcell, hrest⟩ := forall_mem_cons.1 hc
    replace hcell : isIdentifier cell = true := hcell
    refine (both_seriesKey _).bind fun key _ he => (cellStmts_both hrest).bind fun _ _ h₁ => ?_
    subst he
    refine both_pure ⟨?_, ?_⟩
    · simp [stmtLeaves, Stmt.leaves, Leaf.Spelled, hcell, h₁.spelled]
    · simp [hollowStmts, h₁.hollow]

/-- The prologues of a program and of the program with other strings. -/
theorem prologue_both {L : String → String → Prop} {program : Program}
    (hn : NamedStmts L program) (h : env.Twin A r env')
    (hs : ∀ n ∈ env.indicator.sources, isIdentifier n = true)
    (hh : ∀ n ∈ env.indicator.history, isIdentifier n = true) :
    Both (LikeStmts A) (prologue env program) (prologue env' (rewordStmts r program)) := by
  have hcells : ∀ c ∈ program.persistents.zip (Program.cellNames [] program.persistents),
      isIdentifier c.2 = true := fun c hc =>
    Program.isIdentifier_cellNames (Program.isNameShaped_persistents hn) [] c.2
      (of_mem_zip hc).2
  have hsources : ∀ n ∈ env.indicator.sortedSources.filter (· ∉ program.topLevelNames),
      isIdentifier n = true := fun n hn =>
    hs n ((mergeSort_perm _ _).mem_iff.1 (mem_filter.1 hn).1)
  have hhistory : ∀ n ∈ env.indicator.sortedHistory.filter
      (fun n => n ∉ program.declaredNames && n ∉ priceSources), isIdentifier n = true := fun n hn =>
    hh n ((mergeSort_perm _ _).mem_iff.1 (mem_filter.1 hn).1)
  unfold prologue
  simp only [Program.topLevelNames_reword, Program.declaredNames_reword, Program.persistents_reword,
    Indicator.sortedSources, Indicator.sortedHistory, h.sources, h.history]
  refine (sourceStmts_both h hsources).bind fun _ _ h₁ => (historyStmts_both h hhistory).bind
    fun _ _ h₂ => (cellStmts_both (A := A) hcells).bind fun _ _ h₃ => both_pure ⟨?_, ?_⟩
  · simp [h₁.spelled, h₂.spelled, h₃.spelled]
  · simp [h₁.hollow, h₂.hollow, h₃.hollow]

end Lowering

/-! ### Programs -/

/-- Scripts that agree up to their strings, the first of them well-spelled. -/
structure Script.Twin (A : String → Prop) (s t : Script) : Prop where
  version : t.version = s.version
  title : t.title = "" ↔ s.title = ""
  functionName : t.functionName = s.functionName
  body : LikeStmts A s.body t.body

theorem Lowering.State.twin_initial (d d' : Diagnostics) :
    State.Twin { diagnostics := d } { diagnostics := d' } where
  spelled := Scopes.spelled_iff.2 ⟨by simp, by simp⟩
  scopes := rfl
  loops := rfl
  switches := rfl
  seriesNames := rfl

/-- **A program and the program with other strings** have scripts that agree up to their strings. -/
theorem Program.lower_reword {program : Program} (hn : NamedStmts IsBindable program)
    {i j : Indicator} (hij : i.Twin j) {options : Lowering.Options}
    (hplain : ∀ text, Plain text → A text)
    (ht : ∀ name b, options.registry.find? name = some b → A b.target) (r : Rewording)
    {d d₁ : Diagnostics} (d' : Diagnostics) {s : Script}
    (hs : program.lower options i d = (.ok s, d₁)) :
    ∃ s' d₁', Program.lower (rewordStmts r program) options j d' = (.ok s', d₁') ∧ s.Twin A s' := by
  have henv : (Lowering.Context.ofProgram options i program).Twin A r _ :=
    Lowering.Context.twin_ofProgram hn hij options hplain ht
  unfold lower at hs
  dsimp only at hs
  split at hs
  · next body t hrun =>
    cases hs
    have hboth := (Lowering.prologue_both hn henv hij.spelledSources hij.spelledHistory).bind
      fun first first' h₁ => (Lowering.body_both henv false program hn).bind fun rest rest' h₂ =>
        have hbody : LikeStmts A (first ++ rest) (first' ++ rest') :=
          ⟨by simp [h₁.spelled, h₂.spelled], by simp [h₁.hollow, h₂.hollow]⟩
        Lower.both_pure hbody
    obtain ⟨body', t', hrun', hbody⟩ := hboth.of_ok (Lowering.State.twin_initial _ d') hrun
    unfold lower
    dsimp only
    split
    · next body₂ t₂ hrun₂ =>
      cases hrun'.symm.trans hrun₂
      exact ⟨_, _, rfl, hij.version, hij.name, rfl, hbody⟩
    · next e t₂ hrun₂ => cases hrun'.symm.trans hrun₂
  · cases hs

end Pine
