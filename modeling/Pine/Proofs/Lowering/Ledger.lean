import Pine.Lowering.Tree
import Pine.Proofs.Lowering.Ensures
import Pine.Proofs.Script.Keys

/-!
# The ledger of keys

Lowering hands out a key for every series and every cell. The names that it was asked for determine
the keys: the n-th key of a name carries the number n. These keys are the *ledger* of a state. No
key stands in a ledger twice, as long as no name looks like a numbered one.

Loops are numbered as they come, and the numbers that were handed out are a ledger too. What a step
puts into the script is paid for by a ledger: it holds no key, and no counter with a number, more
often than the ledger has gained it, other than those that were in hand before.
-/

namespace Pine

open Lower List

namespace Lowering

open Script (numbered IsNumbered stmtMarks)

/-! ### The ledger -/

/-- The keys handed out for names, the last one first. -/
def ledger : List String → List String
  | [] => []
  | name :: earlier => numbered '#' name (earlier.count name + 1) :: ledger earlier

/-- The keys that have been handed out up to a state. -/
def State.keys (s : State) : List String := ledger s.seriesNames

/-- The keys of a name are numbered by how often it was asked for. -/
theorem exists_of_mem_ledger {key : String} : {names : List String} → key ∈ ledger names →
    ∃ name ∈ names, ∃ n ≤ names.count name, key = numbered '#' name n
  | name :: earlier, h => by
    obtain rfl | h := mem_cons.1 h
    · exact ⟨name, mem_cons_self .., _,
        Nat.le_of_eq count_cons_self.symm, rfl⟩
    · obtain ⟨name', hmem, n, hn, rfl⟩ := exists_of_mem_ledger h
      have hcount := count_le_count_cons (a := name') (b := name) (l := earlier)
      exact ⟨name', mem_cons_of_mem _ hmem, n, Nat.le_trans hn hcount, rfl⟩

/-- **No key is handed out twice**, whatever names are asked for and how often, if none of them
looks like a numbered name. -/
theorem nodup_ledger {names : List String} (h : ∀ name ∈ names, ¬IsNumbered '#' name) :
    (ledger names).Nodup := by
  induction names with
  | nil => exact nodup_nil
  | cons name earlier ih =>
    obtain ⟨hname, hearlier⟩ := forall_mem_cons.1 h
    refine nodup_cons.2 ⟨fun hmem => ?_, ih hearlier⟩
    obtain ⟨name', hmem', n, hn, heq⟩ := exists_of_mem_ledger hmem
    obtain ⟨rfl, rfl⟩ := Script.numbered_inj (by decide) hname (hearlier name' hmem') heq
    exact Nat.not_succ_le_self _ hn

/-! ### Steps that draw on a ledger -/

/-- A ledger of marks: what has been handed out once keys were asked for under some names, and some
loops were numbered. -/
class Ledger {ι : Type} (m : Script.Marks ι) where
  issued : List String → Nat → List ι
  issued_key : ∀ name names loops, issued (name :: names) loops =
    m.key (numbered '#' name (names.count name + 1)) ++ issued names loops
  issued_counter : ∀ names loops,
    issued names (loops + 1) = m.counter (loops + 1) ++ issued names loops

instance : Ledger .keys := ⟨fun names _ => ledger names, fun _ _ _ => rfl, fun _ _ => rfl⟩

section

variable {ι : Type} [DecidableEq ι] (m : Script.Marks ι) [Ledger m]

/-- The marks that have been handed out up to a state. -/
def State.issued (s : State) : List ι := Ledger.issued m s.seriesNames s.loops

/-- Between two states the ledger gains the marks of a result, other than those in hand before, and
is asked for names with a property only. -/
structure Issues (N : String → Prop) (held : List ι) (s : State) (marks : List ι) (s' : State) :
    Prop where
  count : ∀ k, marks.count k + (s.issued m).count k ≤ held.count k + (s'.issued m).count k
  names : (∀ n ∈ s.seriesNames, N n) → ∀ n ∈ s'.seriesNames, N n

/-- A step whose marks are in hand or come from the ledger. -/
def Draws {α : Type} (N : String → Prop) (held : List ι) (step : Lower α) (marks : α → List ι) :
    Prop :=
  ∀ s, Ensures step s fun a s' => Issues m N held s (marks a) s'

/-- A step to an expression whose marks come from the ledger. -/
abbrev DrawsExpr (N : String → Prop) (step : Lower Script.Expr) : Prop :=
  Draws m N [] step (Script.Expr.marks m)

/-- A step to statements whose marks come from the ledger. -/
abbrev DrawsStmts (N : String → Prop) (step : Lower (List Script.Stmt)) : Prop :=
  Draws m N [] step (stmtMarks m)

end

variable {ι : Type} [DecidableEq ι] {m : Script.Marks ι} [Ledger m] {N : String → Prop}
  {env : Context} {α β : Type}

section

variable {held : List ι} {step : Lower α} {next : α → Lower β} {marks : α → List ι}
  {marks' : β → List ι}

theorem draws_pure {a : α} (h : ∀ k, (marks a).count k ≤ held.count k) :
    Draws m N held (pure a) marks :=
  fun _ => ensures_pure ⟨fun k => Nat.add_le_add_right (h k) _, id⟩

theorem draws_empty {a : α} (h : marks a = []) : Draws m N held (pure a) marks :=
  draws_pure fun k => by simp [h]

theorem draws_fail (pos : Pos) (gap : Gap) : Draws m N held (fail pos gap) marks :=
  fun _ => ensures_fail pos gap

/-- What follows a step with marks in hand goes on with the marks of its result. -/
theorem Draws.bind_held (h : Draws m N held step marks)
    (h' : ∀ a, Draws m N (marks a) (next a) marks') : Draws m N held (step >>= next) marks' := by
  refine fun s => (h s).bind fun a s' ha => (h' a s').mono fun b s'' hb => ⟨fun k => ?_, ?_⟩
  · have hfirst := ha.count k
    have hsecond := hb.count k
    omega
  · exact fun hs => hb.names (ha.names hs)

/-- The marks of a first result are in hand for what follows. -/
theorem Draws.bind (h : Draws m N [] step marks)
    (h' : ∀ a, Draws m N (marks a ++ held) (next a) marks') :
    Draws m N held (step >>= next) marks' := by
  have hstep : Draws m N held step fun a => marks a ++ held := by
    refine fun s => (h s).mono fun a s' ha => ⟨fun k => ?_, ha.names⟩
    have hfirst := ha.count k
    rw [count_nil] at hfirst
    rw [count_append]
    omega
  exact hstep.bind_held h'

theorem draws_get {next : State → Lower β} (h : ∀ s, Draws m N held (next s) marks') :
    Draws m N held (get >>= next) marks' :=
  fun s => ensures_get (h s s)

/-- A step that asks for nothing. -/
theorem draws_idle
    (h : ∀ s, Ensures step s fun _ s' => s'.seriesNames = s.seriesNames ∧ s'.loops = s.loops) :
    Draws m N [] step fun _ => [] := by
  refine fun s => (h s).mono fun a s' hs => ⟨fun k => ?_, fun hn => hs.1 ▸ hn⟩
  have hissued : s'.issued m = s.issued m := by rw [State.issued, State.issued, hs.1, hs.2]
  simp [hissued]

/-- A step that asks for nothing, in front of others. -/
theorem Draws.after {first : Lower α} (h : Draws m N [] first fun _ => [])
    (h' : ∀ a, Draws m N held (next a) marks') : Draws m N held (first >>= next) marks' :=
  h.bind h'

theorem Draws.inScope (h : Draws m N [] step marks) : Draws m N [] (inScope step) marks := by
  refine fun s => Ensures.inScope ((h _).mono fun a s' ha => ?_)
  exact ⟨ha.count, ha.names⟩

/-- Statements in sequence. -/
theorem Draws.append {first rest : Lower (List Script.Stmt)}
    (h : DrawsStmts m N first) (h' : DrawsStmts m N rest) :
    DrawsStmts m N (do
      let code ← first
      return code ++ (← rest)) := by
  refine h.bind fun code => h'.bind fun code' => draws_pure fun k => ?_
  rw [Script.stmtMarks_append]
  simp only [count_append, count_nil]
  omega

end

theorem draws_warn (severity : Severity) (feature : String) (line : Int) (message : String) :
    Draws m N [] (warn severity feature line message) fun _ => [] := by
  refine draws_idle fun s => ?_
  rintro _ _ ⟨⟩
  exact ⟨rfl, rfl⟩

theorem draws_define (name : String) (kind : SymbolKind) :
    Draws m N [] (define name kind) fun _ => [] :=
  draws_idle fun _ => (ensures_define name kind).mono fun _ _ h => h.2 ▸ ⟨rfl, rfl⟩

theorem draws_defineAll (kind : SymbolKind) : (names : List String) →
    Draws m N [] (defineAll kind names) fun _ => []
  | [] => draws_empty rfl
  | name :: names => (draws_define name kind).after fun _ =>
    (draws_defineAll kind names).after fun _ => draws_empty rfl

theorem draws_updateSymbol (name : String) (f : Symbol → Symbol) :
    Draws m N [] (updateSymbol name f) fun _ => [] := by
  refine draws_idle fun s => ?_
  rintro _ _ ⟨⟩
  exact ⟨rfl, rfl⟩

theorem draws_freshSwitch : Draws m N [] freshSwitch fun _ => [] := by
  refine draws_idle fun s => ?_
  rintro _ _ ⟨⟩
  exact ⟨rfl, rfl⟩

/-- A loop takes its number from the ledger. -/
theorem draws_freshLoop : Draws m N [] freshLoop m.counter := by
  rintro s _ _ ⟨⟩
  refine ⟨fun k => Nat.le_of_eq ?_, id⟩
  rw [State.issued, State.issued, Ledger.issued_counter, count_append, count_nil,
    Nat.zero_add]

theorem draws_seriesKey {name : String} (hname : N name) :
    Draws m N [] (seriesKey name) m.key := by
  rintro s _ _ ⟨⟩
  refine ⟨fun k => Nat.le_of_eq ?_, fun hn => forall_mem_cons.2 ⟨hname, hn⟩⟩
  rw [State.issued, State.issued, Ledger.issued_key, count_append, count_nil,
    Nat.zero_add]
  rfl

/-- The stores behind an assignment make no series. -/
theorem draws_afterAssign (name : String) : DrawsStmts m N (afterAssign name) := by
  refine draws_get fun s => draws_pure fun k => ?_
  have hstores (symbol : Symbol) : stmtMarks m (stores symbol) = [] := by
    obtain ⟨_, kind, series, cell⟩ := symbol
    unfold stores
    cases kind <;> cases cell <;> cases series <;> rfl
  cases s.scopes.find? name with
  | none => exact Nat.le_refl _
  | some symbol => exact Nat.le_of_eq (congrArg (List.count k) (hstores symbol))

/-! ### Declarations -/

section Declarations

variable (hN : ∀ name ∈ env.indicator.history, N name)

include hN

theorem draws_afterDeclare (name : String) :
    DrawsStmts m N (afterDeclare env name) := by
  refine draws_get fun s => ?_
  split
  · next h =>
    simp only [Bool.and_eq_true, decide_eq_true_eq] at h
    refine (draws_seriesKey (hN name h.1)).bind fun key =>
      (draws_updateSymbol name _).after fun _ => draws_pure fun k => ?_
    exact Nat.le_refl _
  · exact draws_empty rfl

theorem draws_afterDeclareAll : (names : List String) →
    DrawsStmts m N (afterDeclareAll env names)
  | [] => draws_empty rfl
  | name :: names => (draws_afterDeclare hN name).append (draws_afterDeclareAll names)

theorem draws_afterTuple : (pairs : List (String × Bool)) →
    DrawsStmts m N (afterTuple env pairs)
  | [] => draws_empty rfl
  | (name, existed) :: rest => by
    unfold afterTuple
    dsimp only
    split
    · exact (draws_afterAssign name).append (draws_afterTuple rest)
    · exact (draws_afterDeclare hN name).append (draws_afterTuple rest)

/-- A declaration puts the marks of its value and of its series into the script. -/
theorem draws_declStmts (p : Pos) (key : Nat) (name : String) (names : List String)
    (qualifier : String) (value : Script.Expr) : Draws m N (value.marks m)
      (declStmts env p key name names qualifier value) (stmtMarks m) := by
  have hwrite {step : Lower (List Script.Stmt)} (h : DrawsStmts m N step)
      (front : List Script.Stmt) (hfront : stmtMarks m front = value.marks m) :
      Draws m N (value.marks m) (do return front ++ (← step)) (stmtMarks m) := by
    refine h.bind fun code => draws_pure fun k => ?_
    rw [Script.stmtMarks_append, hfront]
    simp only [count_append]
    omega
  unfold declStmts
  split
  · refine (draws_defineAll .plain names).after fun existed =>
      hwrite (draws_afterTuple hN _) _ ?_
    unfold tupleStmts
    dsimp only
    repeat' split
    all_goals simp [stmtMarks, Script.Stmt.marks]
  · split
    · refine (draws_define name .persistent).after fun existed => ?_
      split
      · exact hwrite (draws_afterAssign name) [_] (by simp [stmtMarks, Script.Stmt.marks,
          Script.Expr.marks])
      · split
        · exact draws_fail _ _
        · refine (draws_updateSymbol name _).after fun _ => ?_
          exact hwrite (draws_afterDeclare hN name) [_, _] (by simp [stmtMarks, Script.Stmt.marks])
    · refine (draws_define name .plain).after fun existed => ?_
      split
      · exact hwrite (draws_afterAssign name) [_] (by simp [stmtMarks, Script.Stmt.marks,
          Script.Expr.marks])
      · exact hwrite (draws_afterDeclare hN name) [_] (by simp [stmtMarks, Script.Stmt.marks])

end Declarations

end Lowering

end Pine
