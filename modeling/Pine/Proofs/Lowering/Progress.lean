import Pine.Lowering.Program
import Pine.Proofs.Lowering.Trees

/-!
# Lowering complete trees

Lowering fails only on a tree in which something is absent, or on a persistent declaration without
a cell. Both are excluded for a complete program whose cells are those of its own persistent
declarations, so such a program always has a script.
-/

namespace Pine

namespace Lower

/-! ### Steps that succeed -/

/-- A step that gives a result with a property from every state. -/
def Yields {α : Type} (step : Lower α) (P : α → Prop) : Prop :=
  ∀ s, ∃ a s', step s = .ok a s' ∧ P a

/-- A step that gives a result from every state. -/
abbrev Succeeds {α : Type} (step : Lower α) : Prop := Yields step fun _ => True

variable {α β : Type}

theorem Yields.bind {P : α → Prop} {Q : β → Prop} {step : Lower α} {next : α → Lower β}
    (h : Yields step P) (h' : ∀ a, P a → Yields (next a) Q) : Yields (step >>= next) Q := by
  intro s
  obtain ⟨a, t, ha, hP⟩ := h s
  obtain ⟨b, u, hb, hQ⟩ := h' a hP t
  refine ⟨b, u, ?_, hQ⟩
  change EStateM.bind step next s = _
  rw [EStateM.bind, ha]
  exact hb

/-- Steps that never fail. -/
theorem stepLogic_yields : Lowering.StepLogic False Yields where
  pure h s := ⟨_, s, rfl, h⟩
  bind := Yields.bind
  get h s := h s s
  fail := False.elim

theorem succeeds_pure (a : α) : Succeeds (pure a) := stepLogic_yields.pure trivial

theorem succeeds_get : Succeeds get := fun s => ⟨s, s, rfl, trivial⟩

theorem succeeds_modify (f : Lowering.State → Lowering.State) : Succeeds (modify f) :=
  fun s => ⟨(), f s, rfl, trivial⟩

theorem Succeeds.bind {step : Lower α} {next : α → Lower β} (h : Succeeds step)
    (h' : ∀ a, Succeeds (next a)) : Succeeds (step >>= next) :=
  Yields.bind h fun a _ => h' a

theorem Yields.inScope {P : α → Prop} {step : Lower α} (h : Yields step P) :
    Yields (inScope step) P :=
  Yields.bind (succeeds_modify _) fun _ _ => h.bind fun _ ha =>
    Yields.bind (succeeds_modify _) fun _ _ => stepLogic_yields.pure ha

theorem succeeds_warn (severity : Severity) (feature : String) (line : Int) (message : String) :
    (warn severity feature line message).Succeeds := succeeds_modify _

theorem succeeds_find? (name : String) : (find? name).Succeeds :=
  succeeds_get.bind fun _ => succeeds_pure _

theorem succeeds_define (name : String) (kind : SymbolKind) : (define name kind).Succeeds :=
  succeeds_get.bind fun _ => (succeeds_modify _).bind fun _ => succeeds_pure _

theorem succeeds_defineAll (kind : SymbolKind) : (names : List String) →
    (defineAll kind names).Succeeds
  | [] => succeeds_pure _
  | name :: names => (succeeds_define name kind).bind fun _ =>
    (succeeds_defineAll kind names).bind fun _ => succeeds_pure _

theorem succeeds_freshLoop : freshLoop.Succeeds :=
  succeeds_get.bind fun _ => (succeeds_modify _).bind fun _ => succeeds_pure _

theorem succeeds_freshSwitch : freshSwitch.Succeeds :=
  succeeds_get.bind fun _ => (succeeds_modify _).bind fun _ => succeeds_pure _

theorem succeeds_seriesKey (name : String) : (seriesKey name).Succeeds :=
  succeeds_get.bind fun _ => (succeeds_modify _).bind fun _ => succeeds_pure _

theorem succeeds_afterDeclare (env : Lowering.Context) (name : String) :
    (afterDeclare env name).Succeeds := by
  refine (succeeds_find? name).bind fun symbol => ?_
  dsimp only
  split
  · exact (succeeds_seriesKey name).bind fun _ => (succeeds_modify _).bind fun _ => succeeds_pure _
  · exact succeeds_pure _

theorem succeeds_afterDeclareAll (env : Lowering.Context) : (names : List String) →
    (afterDeclareAll env names).Succeeds
  | [] => succeeds_pure _
  | name :: names => (succeeds_afterDeclare env name).bind fun _ =>
    (succeeds_afterDeclareAll env names).bind fun _ => succeeds_pure _

theorem succeeds_afterAssign (name : String) : (afterAssign name).Succeeds :=
  (succeeds_find? name).bind fun _ => succeeds_pure _

end Lower

namespace Lowering

open Lower

variable {env : Context}

/-! ### Declarations -/

theorem plainDecl_succeeds (name : String) (value : Script.Expr) :
    (plainDecl env name value).Succeeds := by
  refine (succeeds_define name .plain).bind fun existed => ?_
  split
  · exact (succeeds_afterAssign name).bind fun _ => succeeds_pure _
  · exact (succeeds_afterDeclare env name).bind fun _ => succeeds_pure _

theorem persistentDecl_succeeds (pos : Pos) {key : Nat} (name : String) (value : Script.Expr)
    (h : (env.cells.lookup key).isSome) : (persistentDecl env pos key name value).Succeeds := by
  obtain ⟨cell, hcell⟩ := Option.isSome_iff_exists.1 h
  refine (succeeds_define name .persistent).bind fun existed => ?_
  split
  · exact (succeeds_afterAssign name).bind fun _ => succeeds_pure _
  · rw [hcell]
    exact (succeeds_modify _).bind fun _ => (succeeds_afterDeclare env name).bind fun _ =>
      succeeds_pure _

theorem afterTuple_succeeds : (names : List (String × Bool)) → (afterTuple env names).Succeeds
  | [] => succeeds_pure _
  | (name, existed) :: rest => by
    have h : (if existed then afterAssign name else afterDeclare env name).Succeeds := by
      split
      · exact succeeds_afterAssign name
      · exact succeeds_afterDeclare env name
    simp only [afterTuple]
    cases existed
    all_goals exact h.bind fun _ => (afterTuple_succeeds rest).bind fun _ => succeeds_pure _

theorem declStmts_succeeds (pos : Pos) {key : Nat} (name : String) {names : List String}
    {qualifier : String} (value : Script.Expr)
    (h : names = [] → qualifier ≠ "" → (env.cells.lookup key).isSome) :
    (declStmts env pos key name names qualifier value).Succeeds := by
  unfold declStmts
  split
  · exact (succeeds_defineAll .plain names).bind fun _ => (afterTuple_succeeds _).bind fun _ =>
      succeeds_pure _
  · next hn =>
    have hnames : names = [] := by simpa using hn
    split
    · next hq => exact persistentDecl_succeeds pos name value (h hnames hq)
    · exact plainDecl_succeeds name value

/-! ### Trees -/

theorem exprClosed_true : ExprClosed fun _ => True := by
  have hcall : CallClosed fun _ => True := by constructor <;> simp [Callable]
  constructor <;> simp [hcall]

/-- Complete trees are lowered. -/
theorem treeLogic_succeeds : TreeLogic (T := Unit) env False (fun _ => True) (fun _ => True)
    (fun _ => Yields) (fun _ _ => True) (fun _ _ _ _ => True) (fun _ _ _ _ => True)
    (fun _ _ _ => Succeeds) where
  parts _ _ _ _ := trivial
  choice _ _ := trivial
  blocks _ _ _ _ := trivial
  later _ := trivial
  steps _ := stepLogic_yields
  closed _ := exprClosed_true
  name _ _ := trivial
  warned _ := succeeds_warn
  history _ _ := succeeds_pure _
  value _ := trivial
  bind := Yields.bind
  failed := False.elim
  scope hs hQ := Yields.inScope <| Yields.bind (hs ()) fun _ _ =>
    stepLogic_yields.pure (hQ _ trivial)
  nil := succeeds_pure _
  cons _ _ hs hss := hs.bind fun _ => (hss ()).bind fun _ => succeeds_pure _
  decl hc _ := (declStmts_succeeds _ _ _ (hc.resolve_left id).2).bind fun _ => succeeds_pure _
  assign _ := (succeeds_afterAssign _).bind fun _ => succeeds_pure _
  assignMember htarget _ _ := htarget.bind fun _ _ => succeeds_pure _
  func hs := Succeeds.bind (Yields.inScope <| (succeeds_defineAll .param _).bind fun _ =>
    (succeeds_afterDeclareAll env _).bind fun _ => (hs ()).bind fun _ => succeeds_pure _)
      fun _ => succeeds_pure _
  ifElse _ _ _ := succeeds_pure _
  loop _ _ hs := succeeds_freshLoop.bind fun _ => Succeeds.bind (Yields.inScope <|
    (succeeds_defineAll .loop _).bind fun _ => (succeeds_afterDeclareAll env _).bind fun _ =>
      (hs ()).bind fun _ => succeeds_pure _) fun _ => succeeds_pure _
  retVoid _ := succeeds_pure _
  ret _ _ := succeeds_pure _
  brk := succeeds_pure _
  cont := succeeds_pure _
  choices _ _ := succeeds_pure _
  subject _ hbranches hlast := succeeds_freshSwitch.bind fun n =>
    (hbranches () n).bind fun _ _ => (hlast ()).bind fun _ _ => succeeds_pure _
  native _ _ _ := succeeds_pure _
  typeDecl hfields := Succeeds.bind (keeps_slots stepLogic_yields (P := fun _ => True) trivial
    trivial (fun _ _ _ _ _ _ => trivial) hfields) fun _ => succeeds_pure _
  importLib _ := (succeeds_define _ _).bind fun _ => (succeeds_warn _ _ _ _).bind fun _ =>
    succeeds_pure _
  exported := id
  silent _ := succeeds_pure _
  exprStmt _ _ := succeeds_pure _
  nothing := trivial
  block _ := trivial
  elseIf _ _ _ := trivial

/-- **A complete expression is lowered**, if every persistent declaration has a cell. -/
theorem expr_succeeds (e : Expr) (hc : e.Complete (HasCell env)) (bare : Bool) :
    (expr env bare e).Succeeds := treeLogic_succeeds.node (.expr e) trivial (.inr hc) () bare

theorem body_succeeds (tail : Bool) {ss : List Stmt} (hc : CompleteStmts (HasCell env) ss) :
    (body env tail ss).Succeeds :=
  treeLogic_succeeds.body (fun s _ => treeLogic_succeeds.node (.stmt s) trivial) trivial (.inr hc)
    () tail

/-! ### Programs -/

theorem sourceStmts_succeeds : (names : List String) → (sourceStmts env names).Succeeds
  | [] => succeeds_pure _
  | name :: names => (succeeds_define name .plain).bind fun _ =>
    (succeeds_afterDeclare env name).bind fun _ => (sourceStmts_succeeds names).bind fun _ =>
      succeeds_pure _

theorem historyStmts_succeeds : (names : List String) → (historyStmts env names).Succeeds
  | [] => succeeds_pure _
  | name :: names => (succeeds_define name .plain).bind fun _ =>
    (succeeds_afterDeclare env name).bind fun _ => (historyStmts_succeeds names).bind fun _ =>
      succeeds_pure _

theorem cellStmts_succeeds : (cells : List (Program.Persistent × String)) →
    (cellStmts cells).Succeeds
  | [] => succeeds_pure _
  | (_, _) :: rest => (succeeds_seriesKey _).bind fun _ => (cellStmts_succeeds rest).bind fun _ =>
    succeeds_pure _

theorem prologue_succeeds (program : Program) : (prologue env program).Succeeds :=
  (sourceStmts_succeeds _).bind fun _ => (historyStmts_succeeds _).bind fun _ =>
    (cellStmts_succeeds _).bind fun _ => succeeds_pure _

end Lowering

namespace Program

theorem length_cellNames : (earlier : List String) → (ds : List Persistent) →
    (cellNames earlier ds).length = ds.length
  | _, [] => rfl
  | _, _ :: ds => congrArg (· + 1) (length_cellNames _ ds)

/-- The keys of the persistent declarations are those that a walk finds. -/
theorem map_key_persistents (program : Program) :
    program.persistents.map (·.key) = program.nodes.filterMap Node.cellKey? := by
  rw [persistents, List.map_filterMap]
  congr 1
  funext n
  unfold Node.cellKey?
  split
  · next qualifier _ _ => by_cases hq : qualifier = "" <;> simp [hq]
  · simp_all

/-- Every persistent declaration of a program has a cell. -/
theorem each_cellIn (program : Program) :
    Each (Node.CellIn fun key => (program.cells.lookup key).isSome) program.nodes := by
  intro n hn key hkey
  replace hkey : key ∈ program.nodes.filterMap Node.cellKey? := List.mem_filterMap.2 ⟨n, hn, hkey⟩
  rw [← map_key_persistents] at hkey
  have hkeys : program.cells.map Prod.fst = program.persistents.map (·.key) :=
    List.map_fst_zip (by simp [length_cellNames])
  rw [← hkeys] at hkey
  obtain ⟨⟨k, cell⟩, hmem, rfl⟩ := List.mem_map.1 hkey
  rw [List.lookup_isSome_iff]
  exact ⟨(k, cell), hmem, by simp⟩

/-- **A complete program has a script**, whatever its builtins, its description and the warnings
of earlier stages. -/
theorem lower_complete {program : Program} (h : CompleteStmts anyKey program)
    (options : Lowering.Options) (indicator : Indicator) (d : Diagnostics) :
    ∃ script d', program.lower options indicator d = (.ok script, d') := by
  unfold lower
  dsimp only
  generalize henv : (Lowering.Context.mk _ _ _ _ _) = env
  have hcells : CompleteStmts (Lowering.HasCell env) program := by
    subst henv
    exact completeStmts_of_walk program h program.each_cellIn
  have hstep : Lower.Succeeds (do
      let first ← Lowering.prologue env program
      return first ++ (← Lowering.body env false program)) :=
    (Lowering.prologue_succeeds program).bind fun _ =>
      (Lowering.body_succeeds false hcells).bind fun _ => Lower.succeeds_pure _
  obtain ⟨body, s, hs, -⟩ := hstep { diagnostics := d }
  rw [EStateM.run, hs]
  exact ⟨_, _, rfl⟩

end Program

end Pine
