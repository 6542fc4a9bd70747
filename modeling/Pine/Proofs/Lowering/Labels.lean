import Pine.Proofs.Lowering.Bindings
import Pine.Proofs.Lowering.Keeps
import Pine.Proofs.Script.Blocks
import Pine.Proofs.Tree.Blocks

/-!
# Names that lowering declares

Lowering knows by its scopes which variables the innermost block has and which of them have a
series, and it counts loops and switches. What is known in this way is *taken*. A declaration of a
variable asks for what is taken and assigns to a variable that is there; series, counters and
subjects are declared when they are not taken yet. An import binds its name without asking, and a
type neither asks nor binds. So the labels that statements declare in a block are different, except
for names `C` of the source that imports and types take although the block introduces them
elsewhere.
-/

namespace Pine

open Lower List
open Script (ApartBut Label Once declaredNames stmtBlocks safeName once_nil once_cons once_append)

theorem Scopes.eq_of_toList_eq {s t : Scopes} (h : s.toList = t.toList) : s = t := by
  obtain ⟨entry, inner⟩ := s
  obtain ⟨entry', inner'⟩ := t
  obtain ⟨rfl, hentry⟩ := append_inj' h rfl
  cases hentry
  rfl

namespace Lowering

/-! ### Labels that are taken -/

/-- The labels that are known to be declared in the innermost block. Cells are declared once and
for all in front of a program. -/
def State.Taken (s : State) : Label → Prop
  | .own x => (s.scopes.current.find? x).isSome
  | .series x => ∃ symbol, s.scopes.current.find? x = some symbol ∧ symbol.hasSeries = true
  | .loop n => n ≤ s.loops
  | .subject n => n ≤ s.switches
  | .cell _ => False

/-- What was taken is taken, and the blocks around are as they were. -/
structure State.Grows (s s' : State) : Prop where
  outer : s'.scopes.outer = s.scopes.outer
  taken : ∀ l, s.Taken l → s'.Taken l

/-- Nothing was bound. -/
structure State.Onward (s s' : State) : Prop where
  scopes : s'.scopes = s.scopes
  loops : s.loops ≤ s'.loops
  switches : s.switches ≤ s'.switches

section

variable {s s₁ s₂ : State}

theorem State.Grows.refl (s : State) : s.Grows s := ⟨rfl, fun _ => id⟩

theorem State.Grows.trans (h : s.Grows s₁) (h' : s₁.Grows s₂) : s.Grows s₂ :=
  ⟨h'.outer.trans h.outer, fun l hl => h'.taken l (h.taken l hl)⟩

theorem State.Onward.refl (s : State) : s.Onward s := ⟨rfl, Nat.le_refl _, Nat.le_refl _⟩

theorem State.Onward.trans (h : s.Onward s₁) (h' : s₁.Onward s₂) : s.Onward s₂ :=
  ⟨h'.scopes.trans h.scopes, Nat.le_trans h.loops h'.loops, Nat.le_trans h.switches h'.switches⟩

theorem State.Onward.grows (h : s.Onward s₁) : s.Grows s₁ := by
  refine ⟨by rw [h.scopes], fun l hl => ?_⟩
  cases l with
  | own x | series x =>
    rw [Taken, h.scopes]
    exact hl
  | cell text => exact hl
  | loop n => exact Nat.le_trans hl h.loops
  | subject n => exact Nat.le_trans hl h.switches

/-- Closing the scope of a block leaves the scopes as they were. -/
theorem State.Grows.leave (h : State.Grows { s with scopes := s.scopes.enter } s₁) :
    s.Onward { s₁ with scopes := s₁.scopes.leave } where
  scopes := by
    have houter : s₁.scopes.outer = s.scopes.toList := h.outer
    refine Scopes.eq_of_toList_eq ((Scopes.toList_leave ?_).trans houter)
    rw [houter, Scopes.toList_eq]
    exact cons_ne_nil _ _
  loops := h.taken (.loop s.loops) (Nat.le_refl _)
  switches := h.taken (.subject s.switches) (Nat.le_refl _)

end

/-! ### Labels that are declared -/

/-- Where a label comes from that is declared between two states by statements that introduce
names. -/
inductive Origin (names : List (NameKind × String)) (s s' : State) : Label → Prop
  /-- A type neither asks nor binds. -/
  | record {x : String} : (.record, x) ∈ names → Origin names s s' (.own x)
  /-- An import does not ask. -/
  | library {x : String} : (.library, x) ∈ names → s'.Taken (.own x) → Origin names s s' (.own x)
  /-- A variable is declared if it is not taken. -/
  | value {x : String} : (.value, x) ∈ names → ¬ s.Taken (.own x) → s'.Taken (.own x) →
    Origin names s s' (.own x)
  /-- The other labels are declared if they are not taken. -/
  | madeUp {l : Label} : (∀ x, l ≠ .own x) → ¬ s.Taken l → s'.Taken l → Origin names s s' l

variable {C : String → Prop}

/-- A block that declares every name once, as the blocks in it do. -/
def OnceBlock (C : String → Prop) (code : List Script.Stmt) : Prop :=
  Once C (declaredNames code :: stmtBlocks code)

/-- What statements declare that introduce names between two states: the blocks in them declare
every name once, and so do they. -/
structure Emitted (C : String → Prop) (names : List (NameKind × String)) (s : State)
    (code : List Script.Stmt) (s' : State) : Prop extends s.Grows s' where
  once : Once C (stmtBlocks code)
  labels : ∃ labels : List Label, declaredNames code = labels.map Label.text ∧
    labels.Pairwise (Label.ApartBut C) ∧ ∀ l ∈ labels, Origin names s s' l

section

variable {names names' : List (NameKind × String)} {s s₁ s₂ : State} {code rest : List Script.Stmt}
  {l : Label}

theorem Origin.mono (h : Origin names s₁ s₂ l) (hsub : names ⊆ names') {s₀ s₃ : State}
    (hbefore : s₀.Grows s₁) (hafter : s₂.Grows s₃) : Origin names' s₀ s₃ l := by
  cases h with
  | record hmem => exact .record (hsub hmem)
  | library hmem ht => exact .library (hsub hmem) (hafter.taken _ ht)
  | value hmem hf ht =>
    exact .value (hsub hmem) (fun h => hf (hbefore.taken _ h)) (hafter.taken _ ht)
  | madeUp hne hf ht => exact .madeUp hne (fun h => hf (hbefore.taken _ h)) (hafter.taken _ ht)

/-- A label is not declared again behind names that may follow: what asks finds it taken, and what
does not ask has a name of its own or one of the exceptions. -/
theorem Origin.exists_of_again (h : Origin names s s₁ l) (h' : Origin names' s₁ s₂ l)
    (hcross : ∀ p ∈ names, ∀ q ∈ names', MayFollow C p q) : ∃ x, C x ∧ l = .own x := by
  have hown {x : String} (h : Origin names s s₁ (.own x)) : ∃ kind, (kind, x) ∈ names := by
    generalize hl : Label.own x = l at h
    cases h with
    | record hmem | library hmem | value hmem =>
      cases hl
      exact ⟨_, hmem⟩
    | madeUp hne => exact (hne x hl.symm).elim
  cases h' with
  | record hmem' | library hmem' =>
    obtain ⟨kind, hmem⟩ := hown h
    exact ⟨_, hcross _ hmem _ hmem' ⟨rfl, .inr nofun⟩, rfl⟩
  | value hmem' hfree =>
    cases h with
    | record hmem => exact ⟨_, hcross _ hmem _ hmem' ⟨rfl, .inl rfl⟩, rfl⟩
    | library _ ht | value _ _ ht | madeUp _ _ ht => exact absurd ht hfree
  | madeUp hne hfree =>
    cases h with
    | record | library | value => exact absurd rfl (hne _)
    | madeUp _ _ ht => exact absurd ht hfree

namespace Emitted

theorem pairwise (h : Emitted C names s code s₁) : (declaredNames code).Pairwise (ApartBut C) := by
  obtain ⟨labels, hlabels, hapart, -⟩ := h.labels
  rw [hlabels]
  exact Label.pairwise_text hapart

theorem onceBlock (h : Emitted C names s code s₁) : OnceBlock C code :=
  once_cons.2 ⟨h.pairwise, h.once⟩

/-- Statements of a program declare no cells. -/
theorem cellName_notMem (h : Emitted C names s code s₁) (text : String) :
    Script.cellName text ∉ declaredNames code := by
  obtain ⟨labels, hlabels, -, horigin⟩ := h.labels
  rw [hlabels, mem_map]
  rintro ⟨l, hl, heq⟩
  obtain rfl : l = .cell text := Label.text_injective heq
  generalize hcell : Label.cell text = l at horigin hl
  cases horigin l hl with
  | record | library | value => cases hcell
  | madeUp _ _ htaken => exact (hcell ▸ htaken : s₁.Taken (.cell text))

/-- **Statements after statements** declare every label once, if the names that they introduce may
follow each other. -/
theorem append (h : Emitted C names s code s₁) (h' : Emitted C names' s₁ rest s₂)
    (hcross : ∀ p ∈ names, ∀ q ∈ names', MayFollow C p q) :
    Emitted C (names ++ names') s (code ++ rest) s₂ := by
  obtain ⟨labels, hlabels, hapart, horigin⟩ := h.labels
  obtain ⟨labels', hlabels', hapart', horigin'⟩ := h'.labels
  refine ⟨h.toGrows.trans h'.toGrows, ?_, labels ++ labels', ?_, ?_, ?_⟩
  · rw [Script.stmtBlocks_append]
    exact once_append.2 ⟨h.once, h'.once⟩
  · rw [Script.declaredNames_append, hlabels, hlabels', map_append]
  · refine pairwise_append.2 ⟨hapart, hapart', ?_⟩
    rintro l hl _ hl' rfl
    exact (horigin l hl).exists_of_again (horigin' l hl') hcross
  · refine forall_mem_append.2 ⟨fun l hl => ?_, fun l hl => ?_⟩
    · exact (horigin l hl).mono (subset_append_left ..) (.refl s) h'.toGrows
    · exact (horigin' l hl).mono (subset_append_right ..) h.toGrows (.refl s₂)

/-- Statements that declare nothing. -/
theorem of_grows (h : s.Grows s₁) (honce : Once C (stmtBlocks code))
    (hnames : declaredNames code = []) : Emitted C names s code s₁ :=
  ⟨h, honce, [], hnames, .nil, nofun⟩

/-- A statement that declares one label. -/
theorem single (h : s.Grows s₁) (honce : Once C (stmtBlocks code))
    (hnames : declaredNames code = [l.text]) (horigin : Origin names s s₁ l) :
    Emitted C names s code s₁ :=
  ⟨h, honce, [l], hnames, pairwise_singleton _ l, forall_mem_singleton.2 horigin⟩

theorem after (h : Emitted C names s₁ code s₂) (hgrows : s.Grows s₁) :
    Emitted C names s code s₂ := by
  have hnil : Emitted C [] s [] s₁ := of_grows hgrows once_nil rfl
  exact hnil.append h nofun

/-- Bookkeeping introduces no name. -/
theorem append_nil (h : Emitted C names s code s₁) (h' : Emitted C [] s₁ rest s₂) :
    Emitted C names s (code ++ rest) s₂ := by
  have happend := h.append h' fun _ _ _ hq => nomatch hq
  rwa [List.append_nil] at happend

theorem grow (h : Emitted C names s code s₁) (hgrows : s₁.Grows s₂) :
    Emitted C names s code s₂ := by
  have happend := h.append_nil (of_grows hgrows once_nil rfl : Emitted C [] s₁ [] s₂)
  rwa [List.append_nil] at happend

theorem cons_nil {first : Script.Stmt} (h : Emitted C names s [first] s₁)
    (h' : Emitted C [] s₁ rest s₂) : Emitted C names s (first :: rest) s₂ := h.append_nil h'

end Emitted

end

/-! ### Steps -/

section Steps

variable {env : Context} {α β : Type} {step : Lower α} {next : α → Lower β} {P : α → Prop}
  {Q : β → Prop} {names names' : List (NameKind × String)}

/-- A step that binds nothing and whose result has a property. -/
def Quiet (step : Lower α) (P : α → Prop) : Prop := ∀ s : State, Keeps s.Onward step P

/-- A step that emits statements that introduce names. -/
def Adds (C : String → Prop) (names : List (NameKind × String)) (step : Lower (List Script.Stmt)) :
    Prop :=
  ∀ s, Ensures step s (Emitted C names s)

theorem quiet_pure {a : α} (h : P a) : Quiet (pure a) P := fun _ => keeps_pure h

theorem Quiet.bind (h : Quiet step P) (h' : ∀ a, P a → Quiet (next a) Q) :
    Quiet (step >>= next) Q :=
  fun s => (h s).bind fun a ha => h' a ha s

theorem Quiet.ensures (h : Quiet step P) (s : State) :
    Ensures step s fun a s' => P a ∧ s.Onward s' := h s s (.refl s)

theorem quiet_of_ensures (h : ∀ s, Ensures step s fun a s' => P a ∧ s.Onward s') : Quiet step P :=
  fun _ s hs => (h s).mono fun _ _ ha => ⟨ha.1, hs.trans ha.2⟩

theorem quiet_warn (severity : Severity) (feature : String) (line : Int) (message : String) :
    Quiet (warn severity feature line message) fun _ => True := by
  refine quiet_of_ensures fun s => (ensures_warn severity feature line message).mono ?_
  rintro _ _ ⟨_, rfl⟩
  exact ⟨trivial, rfl, Nat.le_refl _, Nat.le_refl _⟩

theorem Quiet.bind_adds {next : α → Lower (List Script.Stmt)} (h : Quiet step P)
    (h' : ∀ a, P a → Adds C names (next a)) : Adds C names (step >>= next) :=
  fun s => (h.ensures s).bind fun a s₁ ha => (h' a ha.1 s₁).mono fun _ _ hcode =>
    hcode.after ha.2.grows

theorem adds_pure {code : List Script.Stmt} (honce : Once C (stmtBlocks code))
    (hnames : declaredNames code = []) : Adds C names (pure code) :=
  fun s => ensures_pure (.of_grows (.refl s) honce hnames)

theorem Adds.append {first rest : Lower (List Script.Stmt)} (h : Adds C names first)
    (h' : Adds C names' rest) (hcross : ∀ p ∈ names, ∀ q ∈ names', MayFollow C p q) :
    Adds C (names ++ names') (do return (← first) ++ (← rest)) :=
  fun s => (h s).bind fun _ s₁ hfirst => (h' s₁).bind fun _ _ hrest =>
    ensures_pure (hfirst.append hrest hcross)

theorem Adds.append_pure {step : Lower (List Script.Stmt)} (h : Adds C names step)
    {rest : List Script.Stmt} (honce : Once C (stmtBlocks rest))
    (hnames : declaredNames rest = []) :
    Adds C names (do return (← step) ++ rest) :=
  fun s => (h s).bind fun _ s₁ hcode =>
    ensures_pure (hcode.append_nil (.of_grows (.refl s₁) honce hnames))

/-- What is bound in a scope of its own is gone after it. -/
theorem quiet_inScope (h : ∀ s, Ensures step s fun a s' => P a ∧ s.Grows s') :
    Quiet (inScope step) P :=
  quiet_of_ensures fun _ => Ensures.inScope ((h _).mono fun _ _ ha => ⟨ha.1, ha.2.leave⟩)

/-- A number that is handed out declares a label that is not taken. -/
theorem adds_numbered {number : Lower Nat} (label : Nat → Label)
    {next : Nat → Lower (List Script.Stmt)} (hlabel : ∀ n x, label n ≠ .own x)
    (hnumber : ∀ s, Ensures number s fun n s' =>
      s.Onward s' ∧ ¬ s.Taken (label n) ∧ s'.Taken (label n))
    (h : ∀ n, Quiet (next n) fun code =>
      Once C (stmtBlocks code) ∧ declaredNames code = [(label n).text]) :
    Adds C names (number >>= next) := by
  refine fun s => (hnumber s).bind fun n s₁ hn => ((h n).ensures s₁).mono fun code s₂ hcode => ?_
  obtain ⟨honward, hfree, htaken⟩ := hn
  obtain ⟨⟨honce, hnames⟩, hafter⟩ := hcode
  exact .single (honward.grows.trans hafter.grows) honce hnames
    (.madeUp (hlabel n) hfree (hafter.grows.taken _ htaken))

/-- A loop declares its counter. -/
theorem adds_freshLoop {next : Nat → Lower (List Script.Stmt)}
    (h : ∀ n, Quiet (next n) fun code =>
      Once C (stmtBlocks code) ∧ declaredNames code = [Script.loopName n]) :
    Adds C names (freshLoop >>= next) := by
  refine adds_numbered .loop nofun (fun s => ?_) h
  refine ensures_get (ensures_modify (ensures_pure ⟨⟨rfl, ?_, Nat.le_refl _⟩, ?_, ?_⟩))
  · exact Nat.le_succ s.loops
  · exact Nat.not_succ_le_self s.loops
  · exact Nat.le_refl (s.loops + 1)

/-- A switch that keeps its subject declares it. -/
theorem adds_freshSwitch {next : Nat → Lower (List Script.Stmt)}
    (h : ∀ n, Quiet (next n) fun code =>
      Once C (stmtBlocks code) ∧ declaredNames code = [Script.subjectName n]) :
    Adds C names (freshSwitch >>= next) := by
  refine adds_numbered .subject nofun (fun s => ?_) h
  refine ensures_get (ensures_modify (ensures_pure ⟨⟨rfl, Nat.le_refl _, ?_⟩, ?_, ?_⟩))
  · exact Nat.le_succ s.switches
  · exact Nat.not_succ_le_self s.switches
  · exact Nat.le_refl (s.switches + 1)

end Steps

/-! ### Bindings -/

section Bindings

variable {env : Context} {s s' : State} {name : String}

/-- Binding a name. -/
theorem grows_define (s : State) (name : String) (kind : SymbolKind) :
    State.Grows s { s with scopes := s.scopes.define name kind } ∧
      State.Taken { s with scopes := s.scopes.define name kind } (.own name) := by
  cases hbound : s.scopes.current.find? name with
  | some symbol =>
    rw [Scopes.define_of_bound hbound]
    exact ⟨.refl s, Option.isSome_iff_exists.2 ⟨symbol, hbound⟩⟩
  | none =>
    refine ⟨⟨?_, fun l hl => ?_⟩, ?_⟩
    · rw [Scopes.define_of_notBound hbound]
      exact Scopes.outer_add ..
    · have hfind {x : String} {symbol : Symbol} (hx : s.scopes.current.find? x = some symbol) :
          (s.scopes.define name kind).current.find? x = some symbol := by
        have hne : x ≠ name := by
          rintro rfl
          cases hbound.symm.trans hx
        rw [Scopes.define_of_notBound hbound, Scopes.current_add]
        exact (Scope.find?_cons_of_ne hne).trans hx
      cases l with
      | own x =>
        obtain ⟨symbol, hx⟩ := Option.isSome_iff_exists.1 hl
        exact Option.isSome_iff_exists.2 ⟨symbol, hfind hx⟩
      | series x =>
        obtain ⟨symbol, hx, hseries⟩ := hl
        exact ⟨symbol, hfind hx, hseries⟩
      | cell | loop | subject => exact hl
    · exact Option.isSome_iff_exists.2 ⟨_, Scopes.find?_define_new hbound kind⟩

/-- Changing a symbol of the innermost scope without taking its series from it. -/
theorem grows_update {symbol : Symbol} (hbound : s.scopes.current.find? name = some symbol)
    (f : Symbol → Symbol) (hname : ∀ b, (f b).name = b.name)
    (hseries : ∀ b, b.hasSeries = true → (f b).hasSeries = true)
    (hs' : s'.scopes = s.scopes.update name f) (hloops : s'.loops = s.loops)
    (hswitches : s'.switches = s.switches) : s.Grows s' := by
  have hfind (x : String) : s'.scopes.current.find? x =
      (s.scopes.current.find? x).map fun b => if b.name = name then f b else b := by
    rw [hs', Scopes.current_update hbound, Scope.find?_update f hname]
  refine ⟨by rw [hs', Scopes.outer_update hbound], fun l hl => ?_⟩
  cases l with
  | own x =>
    rw [State.Taken, hfind, Option.isSome_map]
    exact hl
  | series x =>
    obtain ⟨b, hb, hhas⟩ := hl
    refine ⟨_, by rw [hfind, hb, Option.map_some], ?_⟩
    split
    · exact hseries b hhas
    · exact hhas
  | cell text => exact hl
  | loop n => exact Nat.le_trans hl (Nat.le_of_eq hloops.symm)
  | subject n => exact Nat.le_trans hl (Nat.le_of_eq hswitches.symm)

/-- Giving a bound name its cell. -/
theorem grows_updateSymbol_cell (hbound : s.Taken (.own name)) (cell : String) :
    Ensures (updateSymbol name fun b => { b with cell := some cell }) s fun _ s' => s.Grows s' := by
  obtain ⟨symbol, hsymbol⟩ := Option.isSome_iff_exists.1 hbound
  rintro _ _ ⟨⟩
  exact grows_update hsymbol (fun b => { b with cell := some cell }) (fun _ => rfl) (fun _ h => h)
    rfl rfl rfl

variable (C) in
/-- A name that is bound gets its series once. -/
theorem emitted_afterDeclare (hbound : s.Taken (.own name)) :
    Ensures (afterDeclare env name) s (Emitted C [] s) := by
  obtain ⟨symbol, hsymbol⟩ := Option.isSome_iff_exists.1 hbound
  refine ensures_get ?_
  rw [Scopes.find?_of_current hsymbol, Option.map_some, Option.getD_some]
  split
  · next hneeds =>
    rw [Bool.and_eq_true, Bool.not_eq_true'] at hneeds
    refine (ensures_seriesBinding name).mono ?_
    rintro _ _ ⟨key, rfl, rfl⟩
    refine .single (l := .series name) ?_ once_nil rfl (.madeUp nofun ?_ ?_)
    · exact grows_update hsymbol (fun b => { b with hasSeries := true }) (fun _ => rfl)
        (fun _ _ => rfl) rfl rfl rfl
    · rintro ⟨symbol', hsymbol', hhas⟩
      cases hsymbol.symm.trans hsymbol'
      cases hneeds.2.symm.trans hhas
    · have hname (b : Symbol) : ({ b with hasSeries := true } : Symbol).name = b.name := rfl
      refine ⟨{ symbol with hasSeries := true }, ?_, rfl⟩
      rw [Scopes.current_update hsymbol, Scope.find?_update_self hname, hsymbol]
      rfl
  · exact ensures_pure (.of_grows (.refl s) once_nil rfl)

variable (C) in
theorem emitted_afterDeclareAll : (names : List String) → {s : State} →
    (∀ x ∈ names, s.Taken (.own x)) → Ensures (afterDeclareAll env names) s (Emitted C [] s)
  | [], s, _ => ensures_pure (.of_grows (.refl s) once_nil rfl)
  | name :: names, s, hbound => by
    obtain ⟨hname, hnames⟩ := forall_mem_cons.1 hbound
    refine (emitted_afterDeclare C hname).bind fun first s₁ hfirst => ?_
    have hnames' : ∀ x ∈ names, s₁.Taken (.own x) := fun x hx => hfirst.taken _ (hnames x hx)
    exact (emitted_afterDeclareAll names hnames').bind fun rest s₂ hrest =>
      ensures_pure (hfirst.append_nil hrest)

variable (C) in
/-- An assignment declares nothing. -/
theorem emitted_afterAssign (s : State) (name : String) :
    Ensures (afterAssign name) s (Emitted C [] s) := by
  have hstores (symbol : Symbol) : stmtBlocks (stores symbol) = [] ∧
      declaredNames (stores symbol) = [] := by
    unfold stores
    repeat' split
    all_goals exact ⟨rfl, rfl⟩
  refine (ensures_afterAssign name).mono ?_
  rintro _ s' ⟨rfl, rfl⟩
  cases s'.scopes.find? name with
  | none => exact .of_grows (.refl s') once_nil rfl
  | some symbol =>
    refine .of_grows (.refl s') ?_ (hstores symbol).2
    rw [Option.map_some, Option.getD_some, (hstores symbol).1]
    exact once_nil

end Bindings

/-! ### Declarations -/

section Declarations

variable {env : Context} {value : Script.Expr}

theorem adds_plainDecl (hvalue : Once C value.blocks) (name : String) :
    Adds C [(.value, name)] (plainDecl env name value) := by
  refine fun s => (ensures_define name .plain).bind ?_
  rintro _ _ ⟨rfl, rfl⟩
  obtain ⟨hgrows, htaken⟩ := grows_define s name .plain
  cases hbound : s.scopes.current.find? name with
  | some symbol =>
    refine (emitted_afterAssign C _ name).bind fun code s' hcode => ensures_pure ?_
    refine .cons_nil (.of_grows hgrows ?_ rfl) hcode
    simpa [stmtBlocks, Script.Stmt.blocks, Script.Expr.blocks] using hvalue
  | none =>
    refine (emitted_afterDeclare C htaken).bind fun code s' hcode => ensures_pure ?_
    refine .cons_nil (.single (l := .own name) hgrows ?_ rfl ?_) hcode
    · simpa [stmtBlocks, Script.Stmt.blocks] using hvalue
    · exact .value (mem_singleton.2 rfl) (by simp [State.Taken, hbound]) htaken

theorem adds_persistentDecl (hvalue : Once C value.blocks) (pos : Pos) (key : Nat) (name : String) :
    Adds C [(.value, name)] (persistentDecl env pos key name value) := by
  refine fun s => (ensures_define name .persistent).bind ?_
  rintro _ _ ⟨rfl, rfl⟩
  obtain ⟨hgrows, htaken⟩ := grows_define s name .persistent
  cases hbound : s.scopes.current.find? name with
  | some symbol =>
    refine (emitted_afterAssign C _ name).bind fun code s' hcode => ensures_pure ?_
    refine .cons_nil (.of_grows hgrows ?_ rfl) hcode
    simpa [stmtBlocks, Script.Stmt.blocks, Script.Expr.blocks] using hvalue
  | none =>
    cases hcell : env.cells.lookup key with
    | none => exact ensures_fail pos (.cell name)
    | some cell =>
      refine (grows_updateSymbol_cell htaken cell).bind fun _ s₂ hupdate => ?_
      have htaken' := hupdate.taken _ htaken
      refine (emitted_afterDeclare C htaken').bind fun code s' hcode => ensures_pure ?_
      refine .cons_nil (.single (l := .own name) (hgrows.trans hupdate) ?_ rfl ?_)
        (.cons_nil (.of_grows (.refl s₂) once_nil rfl) hcode)
      · simpa [stmtBlocks, Script.Stmt.blocks] using hvalue
      · exact .value (mem_singleton.2 rfl) (by simp [State.Taken, hbound]) htaken'

/-- The names among those of a declaration that are declared. -/
theorem declaredNames_tupleStmts {names : List String} {existed : List Bool}
    (hlength : existed.length = names.length) (value : Script.Expr) :
    declaredNames (tupleStmts names existed value) =
      ((fresh (names.zip existed)).map Label.own).map Label.text := by
  have hfresh : (((names.map safeName).zip existed).filter (!·.2)).map Prod.fst =
      (fresh (names.zip existed)).map safeName := by
    rw [zip_map_left, filter_map, map_map, fresh, map_map]
    rfl
  have htext : ((fresh (names.zip existed)).map Label.own).map Label.text =
      (fresh (names.zip existed)).map safeName := by
    rw [map_map]
    rfl
  unfold tupleStmts
  dsimp only
  rw [hfresh, htext]
  split
  · split
    · next hempty =>
      rw [List.isEmpty_iff.1 hempty]
      rfl
    · simp [Script.Stmt.declares]
  · next hall =>
    -- all names are new, so none was left out
    have hsub : (fresh (names.zip existed)).Sublist names := by
      have hfilter : (fresh (names.zip existed)).Sublist ((names.zip existed).map Prod.fst) :=
        filter_sublist.map Prod.fst
      rwa [map_fst_zip (Nat.le_of_eq hlength.symm)] at hfilter
    have heq := (hsub.map safeName).eq_of_length_le (Nat.le_of_not_lt hall)
    simp [Script.Stmt.declares, heq]

theorem stmtBlocks_tupleStmts (names : List String) (existed : List Bool) (value : Script.Expr) :
    stmtBlocks (tupleStmts names existed value) = value.blocks := by
  unfold tupleStmts
  dsimp only
  split
  · split <;> simp [stmtBlocks, Script.Stmt.blocks]
  · simp [stmtBlocks, Script.Stmt.blocks]

/-- Binding names. -/
theorem ensures_defineAll_taken (kind : SymbolKind) : (names : List String) → (s : State) →
    Ensures (defineAll kind names) s fun existed s' => existed.length = names.length ∧
      s.Grows s' ∧ (∀ x ∈ names, s'.Taken (.own x)) ∧ (fresh (names.zip existed)).Nodup ∧
      ∀ x ∈ fresh (names.zip existed), x ∈ names ∧ ¬ s.Taken (.own x)
  | [], s => ensures_pure ⟨rfl, .refl s, nofun, nodup_nil, nofun⟩
  | name :: names, s => by
    refine (ensures_define name kind).bind ?_
    rintro _ _ ⟨rfl, rfl⟩
    obtain ⟨hgrows, htaken⟩ := grows_define s name kind
    refine (ensures_defineAll_taken kind names _).bind fun existed s' hrest => ensures_pure ?_
    obtain ⟨hlength, hgrows', htaken', hnodup, hfresh⟩ := hrest
    have hfresh' : ∀ x ∈ fresh (names.zip existed),
        x ∈ name :: names ∧ ¬ s.Taken (.own x) := fun x hx =>
      ⟨mem_cons_of_mem _ (hfresh x hx).1, fun h => (hfresh x hx).2 (hgrows.taken _ h)⟩
    refine ⟨congrArg Nat.succ hlength, hgrows.trans hgrows',
      forall_mem_cons.2 ⟨hgrows'.taken _ htaken, htaken'⟩, ?_⟩
    cases hbound : s.scopes.current.find? name with
    | some symbol => exact ⟨hnodup, hfresh'⟩
    | none =>
      refine ⟨nodup_cons.2 ⟨fun hmem => (hfresh name hmem).2 htaken, hnodup⟩,
        forall_mem_cons.2 ⟨⟨mem_cons_self .., ?_⟩, hfresh'⟩⟩
      simp [State.Taken, hbound]

variable (C) in
theorem emitted_afterTuple : (names : List (String × Bool)) → {s : State} →
    (∀ p ∈ names, s.Taken (.own p.1)) → Ensures (afterTuple env names) s (Emitted C [] s)
  | [], s, _ => ensures_pure (.of_grows (.refl s) once_nil rfl)
  | (name, existed) :: rest, s, hbound => by
    obtain ⟨hname, hrest⟩ := forall_mem_cons.1 hbound
    have hlater {first : List Script.Stmt} {s₁ : State} (hfirst : Emitted C [] s first s₁) :
        Ensures (do return first ++ (← afterTuple env rest)) s₁ (Emitted C [] s) :=
      (emitted_afterTuple rest fun p hp => hfirst.taken _ (hrest p hp)).bind fun _ _ hcode =>
        ensures_pure (hfirst.append_nil hcode)
    cases existed with
    | true => exact (emitted_afterAssign C s name).bind fun _ _ => hlater
    | false => exact (emitted_afterDeclare C hname).bind fun _ _ => hlater

theorem adds_tupleDecl (hvalue : Once C value.blocks) (names : List String) :
    Adds C (names.map (.value, ·)) (tupleDecl env names value) := by
  refine fun s => (ensures_defineAll_taken .plain names s).bind fun existed s₁ hdefine => ?_
  obtain ⟨hlength, hgrows, htaken, hnodup, hfresh⟩ := hdefine
  have hbound : ∀ p ∈ names.zip existed, s₁.Taken (.own p.1) :=
    fun p hp => htaken p.1 (of_mem_zip hp).1
  have hdeclared : Emitted C (names.map (.value, ·)) s (tupleStmts names existed value) s₁ := by
    refine ⟨hgrows, ?_, _, declaredNames_tupleStmts hlength value, ?_, ?_⟩
    · rw [stmtBlocks_tupleStmts]
      exact hvalue
    · exact pairwise_map.2 (hnodup.imp fun hne heq => absurd (Label.own.inj heq) hne)
    · refine forall_mem_map.2 fun x hx => ?_
      obtain ⟨hmem, hfree⟩ := hfresh x hx
      exact .value (mem_map_of_mem hmem) hfree (htaken x hmem)
  exact (emitted_afterTuple C _ hbound).bind fun _ _ hcode =>
    ensures_pure (hdeclared.append_nil hcode)

/-- **A declaration** declares the names that are not taken. -/
theorem adds_declStmts (hvalue : Once C value.blocks) (pos : Pos) (key : Nat) (name : String)
    (names : List String) (qualifier : String) :
    Adds C ((Stmt.declared name names).map (.value, ·))
      (declStmts env pos key name names qualifier value) := by
  cases names with
  | nil =>
    by_cases hqualifier : qualifier = ""
    · rw [declStmts, if_neg (by simp), if_neg (by simp [hqualifier])]
      exact adds_plainDecl hvalue name
    · rw [declStmts, if_neg (by simp), if_pos hqualifier]
      exact adds_persistentDecl hvalue pos key name
  | cons first rest => exact adds_tupleDecl hvalue (first :: rest)

end Declarations

end Lowering

end Pine
