import Mathlib.Data.List.Forall2
import Pine.Lowering.Tree
import Pine.Proofs.Lowering.Ensures
import Pine.Proofs.Script.Bookkeeping
import Pine.Proofs.Script.Capture

/-!
# The variables of a script and the scopes of lowering

Lowering knows by its scopes which variables the script has at the place that it has reached, which
of them have a cell, and which have a series. The variables of a script say the same of the script
alone. The two agree at every place, up to variables that the compiler makes up, of which nothing
is kept.

A variable whose history is read anywhere gets its series with its declaration. Between the two it
is *pending*; everywhere else such a variable has a series.
-/

namespace Pine

open List

/-! ### Symbols and scopes -/

/-- The variable of a symbol. -/
def Symbol.binding (s : Symbol) : Script.Binding where
  name := s.scriptName
  cell := if s.kind = .persistent then s.cell else none
  hasSeries := s.hasSeries

theorem Symbol.stores_binding (s : Symbol) : s.binding.stores = Lower.stores s := by
  obtain ⟨name, kind, hasSeries, cell⟩ := s
  cases kind <;> cases cell <;> rfl

theorem Symbol.binding_new (name : String) (kind : SymbolKind) :
    ({ name, kind } : Symbol).binding = { name := Script.safeName name } := by
  cases kind <;> rfl

namespace Scope

variable {scope : Scope} {name : String}

theorem find?_cons_self (symbol : Symbol) : find? (symbol :: scope) symbol.name = some symbol := by
  simp [find?]

theorem find?_cons_of_ne {symbol : Symbol} (h : name ≠ symbol.name) :
    find? (symbol :: scope) name = scope.find? name := by
  simp [find?, Ne.symm h]

theorem name_of_find? {symbol : Symbol} (h : scope.find? name = some symbol) :
    symbol.name = name := by
  simpa using find?_some h

theorem find?_update (f : Symbol → Symbol) (hf : ∀ s, (f s).name = s.name) (other : String) :
    (scope.update other f).find? name =
      (scope.find? name).map fun s => if s.name = other then f s else s := by
  have hname (s : Symbol) : (if s.name = other then f s else s).name = s.name := by
    split
    · exact hf s
    · rfl
  simp only [find?, update, List.find?_map, Function.comp_def, hname]

theorem find?_update_self {f : Symbol → Symbol} (hf : ∀ s, (f s).name = s.name) :
    (scope.update name f).find? name = (scope.find? name).map f := by
  rw [find?_update f hf]
  cases h : scope.find? name with
  | none => rfl
  | some symbol => simp [name_of_find? h]

theorem find?_update_of_ne {f : Symbol → Symbol} (hf : ∀ s, (f s).name = s.name) {other : String}
    (hne : name ≠ other) : (scope.update other f).find? name = scope.find? name := by
  rw [find?_update f hf]
  cases h : scope.find? name with
  | none => rfl
  | some symbol => simp [name_of_find? h, hne]

theorem update_of_notBound (h : scope.find? name = none) (f : Symbol → Symbol) :
    scope.update name f = scope := by
  have hid : ∀ s ∈ scope, (if s.name = name then f s else s) = id s := fun s hs =>
    if_neg (by simpa using find?_eq_none.1 h s hs)
  rw [update, map_congr_left hid, map_id]

end Scope

namespace Scopes

variable {s : Scopes} {name : String} {symbol : Symbol}

@[simp]
theorem current_add (s : Scopes) (symbol : Symbol) :
    (s.add symbol).current = symbol :: s.current := by
  obtain ⟨entry, inner⟩ := s
  cases inner <;> rfl

@[simp]
theorem outer_add (s : Scopes) (symbol : Symbol) : (s.add symbol).outer = s.outer := by
  obtain ⟨entry, inner⟩ := s
  cases inner <;> rfl

theorem define_of_notBound (h : s.current.find? name = none) (kind : SymbolKind) :
    s.define name kind = s.add { name, kind } := by
  rw [define, h]
  rfl

theorem find?_define_new (h : s.current.find? name = none) (kind : SymbolKind) :
    (s.define name kind).current.find? name = some { name, kind } := by
  rw [define_of_notBound h, current_add]
  exact Scope.find?_cons_self { name, kind }

theorem current_update (h : s.current.find? name = some symbol) (f : Symbol → Symbol) :
    (s.update name f).current = s.current.update name f := by
  obtain ⟨entry, inner⟩ := s
  cases inner with
  | nil => rfl
  | cons scope inner =>
    have hscope : scope.find? name = some symbol := h
    simp [update, updateFirst, current, hscope]

theorem outer_update (h : s.current.find? name = some symbol) (f : Symbol → Symbol) :
    (s.update name f).outer = s.outer := by
  obtain ⟨entry, inner⟩ := s
  cases inner with
  | nil => rfl
  | cons scope inner =>
    have hscope : scope.find? name = some symbol := h
    simp [update, updateFirst, outer, toList, hscope]

@[simp]
theorem outer_enter (s : Scopes) : s.enter.outer = s.toList := rfl

/-- Closing a scope that has others around it. -/
theorem toList_leave (h : s.outer ≠ []) : s.leave.toList = s.outer := by
  obtain ⟨entry, inner⟩ := s
  cases inner with
  | nil => exact absurd rfl h
  | cons scope inner => rfl

end Scopes

/-! ### Tables and scopes -/

namespace Script

/-- The variables of a block agree with the symbols of a scope. A symbol whose history is read has
a series unless it is pending. -/
structure Frame.Tracks (history pending : List String) (f : Frame) (scope : Scope) : Prop where
  find?_safeName : ∀ x, f.find? (safeName x) = (scope.find? x).map Symbol.binding
  stores_madeUp : ∀ n b, (∀ x, n ≠ safeName x) → f.find? n = some b → b.stores = []
  hasSeries : ∀ x ∈ history, x ∉ pending → ∀ symbol, scope.find? x = some symbol →
    symbol.hasSeries = true

namespace Frame.Tracks

variable {history pending : List String} {f : Frame} {scope : Scope} {name : String}

theorem nil : Tracks history pending [] [] := ⟨fun _ => rfl, nofun, nofun⟩

theorem mono (h : f.Tracks history pending scope) {more : List String} (hsub : pending ⊆ more) :
    f.Tracks history more scope :=
  ⟨h.find?_safeName, h.stores_madeUp, fun x hx hmore => h.hasSeries x hx fun hp => hmore (hsub hp)⟩

/-- A symbol that has a series, or needs none, is not pending. -/
theorem settle (h : f.Tracks history (name :: pending) scope)
    (hname : name ∈ history → ∀ symbol, scope.find? name = some symbol → symbol.hasSeries = true) :
    f.Tracks history pending scope := by
  refine ⟨h.find?_safeName, h.stores_madeUp, fun x hx hpending => ?_⟩
  by_cases heq : x = name
  · exact heq ▸ hname (heq ▸ hx)
  · exact h.hasSeries x hx (by simp [heq, hpending])

/-- A new symbol is pending. -/
theorem add (h : f.Tracks history pending scope) (symbol : Symbol)
    (hnew : scope.find? symbol.name = none) :
    (f.add symbol.binding).Tracks history (symbol.name :: pending) (symbol :: scope) := by
  have hfree : f.find? symbol.binding.name = none := by
    rw [Symbol.binding, Symbol.scriptName, h.find?_safeName, hnew]
    rfl
  refine ⟨fun x => ?_, fun n b hn hb => ?_, fun x hx hpending s hs => ?_⟩
  · by_cases heq : x = symbol.name
    · subst heq
      rw [Scope.find?_cons_self, Frame.add_of_notBound hfree]
      exact find?_cons_self
    · rw [Scope.find?_cons_of_ne heq, ← h.find?_safeName,
        find?_add_of_ne fun hsafe => heq (safeName_injective hsafe)]
  · rw [find?_add_of_ne (hn symbol.name)] at hb
    exact h.stores_madeUp n b hn hb
  · rw [mem_cons, not_or] at hpending
    rw [Scope.find?_cons_of_ne hpending.1] at hs
    exact h.hasSeries x hx hpending.2 s hs

/-- A variable that the compiler makes up has no symbol. -/
theorem add_madeUp (h : f.Tracks history pending scope) (hname : ∀ x, name ≠ safeName x) :
    (f.add { name }).Tracks history pending scope := by
  refine ⟨fun x => ?_, fun n b hn hb => ?_, h.hasSeries⟩
  · rw [find?_add_of_ne (hname x).symm, h.find?_safeName]
  · by_cases heq : n = name
    · subst heq
      rw [find?_add_name, Option.some.injEq] at hb
      cases hf : f.find? n with
      | none =>
        rw [hf] at hb
        subst hb
        rfl
      | some c =>
        rw [hf, Option.getD_some] at hb
        exact hb ▸ h.stores_madeUp n c hn hf
    · rw [find?_add_of_ne heq] at hb
      exact h.stores_madeUp n b hn hb

/-- Giving a symbol its series. -/
theorem mark (h : f.Tracks history (name :: pending) scope) {symbol : Symbol}
    (hbound : scope.find? name = some symbol) :
    (f.mark (safeName name)).Tracks history pending
      (scope.update name fun s => { s with hasSeries := true }) := by
  let marked (s : Symbol) : Symbol := { s with hasSeries := true }
  have hname (s : Symbol) : (marked s).name = s.name := rfl
  change Tracks history pending _ (scope.update name marked)
  refine ⟨fun x => ?_, fun n b hn hb => ?_, fun x hx hpending s hs => ?_⟩
  · by_cases heq : x = name
    · subst heq
      rw [find?_mark, h.find?_safeName, Scope.find?_update_self hname, hbound]
      rfl
    · rw [find?_mark_of_ne fun hsafe => heq (safeName_injective hsafe), h.find?_safeName,
        Scope.find?_update_of_ne hname heq]
  · rw [find?_mark_of_ne (hn name)] at hb
    exact h.stores_madeUp n b hn hb
  · by_cases heq : x = name
    · subst heq
      rw [Scope.find?_update_self hname, hbound] at hs
      cases hs
      rfl
    · rw [Scope.find?_update_of_ne hname heq] at hs
      exact h.hasSeries x hx (by simp [heq, hpending]) s hs

end Frame.Tracks

section

variable {history pending : List String} {frames : List Frame} {scopes : List Scope}

theorem Frame.findSome?_safeName (h : List.Forall₂ (Tracks history pending) frames scopes)
    (x : String) : frames.findSome? (·.find? (safeName x)) =
      (scopes.findSome? (·.find? x)).map Symbol.binding := by
  induction h with
  | nil => rfl
  | @cons f scope _ _ hf _ ih =>
    rw [findSome?_cons, findSome?_cons, hf.find?_safeName, ih]
    cases scope.find? x <;> rfl

theorem Frame.hasSeries_of_mem (h : List.Forall₂ (Tracks history []) frames scopes) {x : String}
    (hx : x ∈ history) {scope : Scope} (hscope : scope ∈ scopes) {symbol : Symbol}
    (hsymbol : scope.find? x = some symbol) : symbol.hasSeries = true := by
  induction h with
  | nil => cases hscope
  | cons hf _ ih =>
    obtain rfl | hscope := mem_cons.1 hscope
    · exact hf.hasSeries x hx not_mem_nil symbol hsymbol
    · exact ih hscope

end

/-- The variables in scope agree with the symbols of all scopes. -/
structure Vars.Tracks (history pending : List String) (t : Vars) (s : Scopes) : Prop where
  current : t.current.Tracks history pending s.current
  outer : List.Forall₂ (Frame.Tracks history []) t.outer s.outer

namespace Vars.Tracks

variable {history pending : List String} {t : Vars} {s : Scopes} {name : String}

theorem mono (h : t.Tracks history pending s) {more : List String} (hsub : pending ⊆ more) :
    t.Tracks history more s :=
  ⟨h.current.mono hsub, h.outer⟩

theorem find?_safeName (h : t.Tracks history pending s) (x : String) :
    t.find? (safeName x) = (s.find? x).map Symbol.binding := by
  rw [find?, Scopes.find?, Scopes.toList_eq]
  have houter := h.outer.imp fun _ _ hf => hf.mono (nil_subset pending)
  exact Frame.findSome?_safeName (.cons h.current houter) x

theorem isSome_current (h : t.Tracks history pending s) (x : String) :
    (t.current.find? (safeName x)).isSome = (s.current.find? x).isSome := by
  rw [h.current.find?_safeName, Option.isSome_map]

/-- A variable whose history is read has a series. -/
theorem hasSeries (h : t.Tracks history [] s) (hx : name ∈ history) {b : Binding}
    (hb : t.find? (safeName name) = some b) : b.hasSeries = true := by
  rw [h.find?_safeName] at hb
  obtain ⟨symbol, hsymbol, rfl⟩ := Option.map_eq_some_iff.1 hb
  rw [Scopes.find?, Scopes.toList_eq] at hsymbol
  obtain ⟨scope, hscope, hfind⟩ := exists_of_findSome?_eq_some hsymbol
  exact Frame.hasSeries_of_mem (.cons h.current h.outer) hx hscope hfind

theorem enter (h : t.Tracks history [] s) : (t.enter []).Tracks history [] s.enter := by
  refine ⟨.nil, ?_⟩
  rw [Scopes.outer_enter, Scopes.toList_eq]
  exact .cons h.current h.outer

theorem leave {u : Vars} (h : u.Tracks history [] s) (hu : u.outer = t.current :: t.outer) :
    t.Tracks history [] s.leave := by
  have houter := h.outer
  rw [hu] at houter
  have hne : s.outer ≠ [] := by
    intro hnil
    rw [hnil] at houter
    cases houter
  rw [← Scopes.toList_leave hne, Scopes.toList_eq] at houter
  cases houter with
  | cons hcurrent houter => exact ⟨hcurrent, houter⟩

/-- Binding a name that is not bound in the innermost scope. -/
theorem define_of_notBound (h : t.Tracks history pending s) (hnew : s.current.find? name = none)
    (kind : SymbolKind) :
    (t.add { name := safeName name }).Tracks history (name :: pending) (s.define name kind) := by
  rw [Scopes.define_of_notBound hnew, ← Symbol.binding_new name kind]
  refine ⟨?_, ?_⟩
  · rw [Scopes.current_add]
    exact h.current.add { name, kind } hnew
  · rw [Scopes.outer_add]
    exact h.outer

/-- Binding a name that is bound in the innermost scope changes nothing. -/
theorem add_of_bound (h : t.Tracks history pending s) {symbol : Symbol}
    (hbound : s.current.find? name = some symbol) : t.add { name := safeName name } = t := by
  have hframe : t.current.find? (safeName name) = some symbol.binding := by
    rw [h.current.find?_safeName, hbound, Option.map_some]
  rw [Vars.add, Frame.add_of_find? hframe]

theorem define (h : t.Tracks history pending s) (name : String) (kind : SymbolKind) :
    (t.add { name := safeName name }).Tracks history (name :: pending) (s.define name kind) := by
  cases hb : s.current.find? name with
  | none => exact h.define_of_notBound hb kind
  | some symbol =>
    rw [h.add_of_bound hb, Scopes.define_of_bound hb]
    exact h.mono (subset_cons_self ..)

/-- Binding a persistent name and giving it a cell. -/
theorem define_persistent (h : t.Tracks history pending s) (hnew : s.current.find? name = none)
    (cell : String) :
    (t.add { name := safeName name, cell := some cell }).Tracks history (name :: pending)
      ((s.define name .persistent).update name fun s => { s with cell := some cell }) := by
  let symbol : Symbol := { name, kind := .persistent, cell := some cell }
  have hbound := Scopes.find?_define_new hnew .persistent
  refine ⟨?_, ?_⟩
  · have hcurrent : ((s.define name .persistent).update name
        fun s => { s with cell := some cell }).current = symbol :: s.current := by
      rw [Scopes.current_update hbound, Scopes.define_of_notBound hnew, Scopes.current_add]
      exact congrArg₂ List.cons (if_pos rfl) (Scope.update_of_notBound hnew _)
    rw [hcurrent]
    exact h.current.add symbol hnew
  · rw [Scopes.outer_update hbound, Scopes.define_of_notBound hnew, Scopes.outer_add]
    exact h.outer

/-- Giving a symbol of the innermost scope its series. -/
theorem mark (h : t.Tracks history (name :: pending) s) {symbol : Symbol}
    (hbound : s.current.find? name = some symbol) (key : String) :
    (t.after (.series (safeName name) key)).Tracks history pending
      (s.update name fun s => { s with hasSeries := true }) := by
  refine ⟨?_, ?_⟩
  · rw [Scopes.current_update hbound]
    exact h.current.mark hbound
  · rw [Scopes.outer_update hbound]
    exact h.outer

theorem add_madeUp (h : t.Tracks history pending s) (hname : ∀ x, name ≠ safeName x) :
    (t.add { name }).Tracks history pending s :=
  ⟨h.current.add_madeUp hname, h.outer⟩

end Vars.Tracks

end Script

/-! ### What follows declarations and assignments -/

namespace Lowering

open Script (Vars stmtsInStep safeName)

/-- Bookkeeping from the variables of `t` on to scopes: it is in step, it gives their series to all
but the pending symbols, and it takes nothing from what is kept of a variable. -/
structure Books (history pending : List String) (t : Vars) (code : List Script.Stmt)
    (s : Scopes) : Prop where
  isBookkeeping : ∀ d ∈ code, d.isBookkeeping = true
  inStep : stmtsInStep t code
  tracks : (t.afterAll code).Tracks history pending s
  stores_subset : ∀ n b, t.find? n = some b →
    ∃ b', (t.afterAll code).find? n = some b' ∧ b.stores ⊆ b'.stores

namespace Books

variable {history pending later : List String} {t : Vars} {code rest : List Script.Stmt}
  {s s' : Scopes}

theorem nil (h : t.Tracks history pending s) : Books history pending t [] s :=
  ⟨nofun, trivial, h, fun _ b hb => ⟨b, hb, List.Subset.refl _⟩⟩

theorem append (h : Books history pending t code s)
    (h' : Books history later (t.afterAll code) rest s') :
    Books history later t (code ++ rest) s' := by
  refine ⟨forall_mem_append.2 ⟨h.isBookkeeping, h'.isBookkeeping⟩,
    Script.stmtsInStep_append h.inStep h'.inStep, ?_, fun n b hb => ?_⟩
  · rw [Script.Vars.afterAll_append]
    exact h'.tracks
  · obtain ⟨b₁, hb₁, hsub₁⟩ := h.stores_subset n b hb
    obtain ⟨b₂, hb₂, hsub₂⟩ := h'.stores_subset n b₁ hb₁
    exact ⟨b₂, by rw [Script.Vars.afterAll_append, hb₂], List.Subset.trans hsub₁ hsub₂⟩

theorem store (h : Books history pending t code s) (cell name : String) :
    Books history pending t (.store cell name :: code) s :=
  ⟨forall_mem_cons.2 ⟨rfl, h.isBookkeeping⟩, ⟨trivial, nofun, h.inStep⟩, h.tracks,
    h.stores_subset⟩

end Books

end Lowering

namespace Lower

open Lowering
open Script (Vars stmtsInStep safeName)

variable {env : Context} {s : State} {t : Vars} {pending : List String} {name : String}

theorem ensures_seriesKey (name : String) :
    Ensures (seriesKey name) s fun _ s' => s' = { s with seriesNames := name :: s.seriesNames } :=
  ensures_get (ensures_modify (ensures_pure rfl))

theorem ensures_seriesBinding (name : String) :
    Ensures (seriesBinding name) s fun code s' => ∃ key,
      code = [.series (safeName name) key, .record (safeName name), .accessor (safeName name)] ∧
        s' = { s with
          scopes := s.scopes.update name fun s => { s with hasSeries := true }
          seriesNames := name :: s.seriesNames } :=
  (ensures_seriesKey name).bind fun key _ hs =>
    ensures_modify (ensures_pure ⟨key, rfl, by rw [hs]⟩)

/-- A declaration gives its variable a series if it needs one. -/
theorem ensures_afterDeclare (h : t.Tracks env.indicator.history (name :: pending) s.scopes)
    (hbound : (t.current.find? (safeName name)).isSome) :
    Ensures (afterDeclare env name) s fun code s' =>
      Books env.indicator.history pending t code s'.scopes := by
  rw [h.isSome_current] at hbound
  obtain ⟨symbol, hsymbol⟩ := Option.isSome_iff_exists.1 hbound
  refine ensures_get ?_
  rw [Scopes.find?_of_current hsymbol, Option.map_some, Option.getD_some]
  split
  · next hneeds =>
    rw [Bool.and_eq_true, Bool.not_eq_true'] at hneeds
    refine (ensures_seriesBinding name).mono ?_
    rintro _ _ ⟨key, rfl, rfl⟩
    have hcurrent : t.current.find? (safeName name) = some symbol.binding := by
      rw [h.current.find?_safeName, hsymbol, Option.map_some]
    refine ⟨?_, ?_, h.mark hsymbol key, Vars.stores_subset_mark hcurrent⟩
    · simp [Script.Stmt.isBookkeeping]
    · refine Script.stmtsInStep_series key fun b hb => ?_
      cases hcurrent.symm.trans hb
      exact hneeds.2
  · next hneeds =>
    refine ensures_pure (.nil ⟨h.current.settle fun hmem symbol' hsymbol' => ?_, h.outer⟩)
    cases hsymbol.symm.trans hsymbol'
    simpa [hmem] using hneeds

theorem ensures_afterDeclareAll : (names : List String) → {s : State} → {t : Vars} →
    t.Tracks env.indicator.history names s.scopes →
    (∀ x ∈ names, (t.current.find? (safeName x)).isSome) →
    Ensures (afterDeclareAll env names) s fun code s' =>
      Books env.indicator.history [] t code s'.scopes
  | [], _, _, h, _ => ensures_pure (.nil h)
  | name :: names, s, t, h, hbound => by
    refine (ensures_afterDeclare h (hbound name (mem_cons_self ..))).bind
      fun first s₁ hfirst => ?_
    have hrest : ∀ x ∈ names, ((t.afterAll first).current.find? (safeName x)).isSome := fun x hx =>
      Vars.isSome_afterAll first (hbound x (mem_cons_of_mem _ hx))
    exact (ensures_afterDeclareAll names hfirst.tracks hrest).bind fun rest s₂ hbooks =>
      ensures_pure (hfirst.append hbooks)

/-- An assignment stores its variable. -/
theorem ensures_afterAssign_books (h : t.Tracks env.indicator.history pending s.scopes)
    (name : String) :
    Ensures (afterAssign name) s fun code s' =>
      code = (t.find? (safeName name)).elim [] Script.Binding.stores ∧
        Books env.indicator.history pending t code s'.scopes := by
  refine (ensures_afterAssign name).mono ?_
  rintro _ s ⟨rfl, rfl⟩
  rw [h.find?_safeName]
  cases s.scopes.find? name with
  | none => exact ⟨rfl, .nil h⟩
  | some symbol =>
    simp only [Option.map_some, Option.getD_some, Option.elim_some, ← Symbol.stores_binding]
    have hafter := symbol.binding.afterAll_stores t
    refine ⟨trivial, symbol.binding.isBookkeeping_stores, symbol.binding.inStep_stores t, ?_, ?_⟩
    · rwa [hafter]
    · rw [hafter]
      exact fun n b hb => ⟨b, hb, List.Subset.refl _⟩

/-- The names among those of a declaration that were not bound before. -/
def fresh (names : List (String × Bool)) : List String := (names.filter (!·.2)).map Prod.fst

/-- Binding names tells which of them were bound before. -/
theorem ensures_defineAll (kind : SymbolKind) : (names : List String) → {s : State} → {t : Vars} →
    {pending : List String} → t.Tracks env.indicator.history pending s.scopes →
    Ensures (defineAll kind names) s fun existed s' =>
      existed = t.current.known (names.map safeName) ∧
        ({ t with current := t.current.addAll (names.map safeName) } : Vars).Tracks
          env.indicator.history (fresh (names.zip existed) ++ pending) s'.scopes
  | [], _, _, _, h => ensures_pure ⟨rfl, h⟩
  | name :: names, s, t, pending, h => by
    refine (ensures_define name kind).bind ?_
    rintro _ _ ⟨rfl, rfl⟩
    have hknown := h.isSome_current name
    cases hbound : s.scopes.current.find? name with
    | some symbol =>
      have hadd : t.current.add { name := safeName name } = t.current :=
        congrArg Vars.current (h.add_of_bound hbound)
      rw [Scopes.define_of_bound hbound]
      refine (ensures_defineAll kind names h).bind fun existed s' hnames => ensures_pure ⟨?_, ?_⟩
      · rw [map_cons, Script.Frame.known, hknown, hbound, hadd, hnames.1]
      · rw [map_cons, Script.Frame.addAll, foldl_cons, hadd]
        exact hnames.2
    | none =>
      refine (ensures_defineAll kind names (h.define_of_notBound hbound kind)).bind
        fun existed s' hnames => ensures_pure ⟨?_, ?_⟩
      · rw [map_cons, Script.Frame.known, hknown, hbound, hnames.1]
        rfl
      · exact hnames.2.mono (by simp [fresh])

/-- After a declaration of several names those that were bound before are stored and the others
have their series. -/
theorem ensures_afterTuple : (names : List (String × Bool)) → {s : State} → {t : Vars} →
    t.Tracks env.indicator.history (fresh names) s.scopes →
    (∀ p ∈ names, (t.current.find? (safeName p.1)).isSome) →
    Ensures (afterTuple env names) s fun code s' =>
      Books env.indicator.history [] t code s'.scopes ∧
        ∀ x b, (x, true) ∈ names → t.find? (safeName x) = some b → b.stores ⊆ code
  | [], _, _, h, _ => ensures_pure ⟨.nil h, nofun⟩
  | (name, existed) :: rest, s, t, h, hbound => by
    have hbound' (first : List Script.Stmt) (p : String × Bool) (hp : p ∈ rest) :
        ((t.afterAll first).current.find? (safeName p.1)).isSome :=
      Vars.isSome_afterAll first (hbound p (mem_cons_of_mem _ hp))
    cases existed with
    | false =>
      refine (ensures_afterDeclare h (hbound _ (mem_cons_self ..))).bind
        fun first s₁ hfirst => ?_
      refine (ensures_afterTuple rest hfirst.tracks (hbound' first)).bind fun code s₂ hcode => ?_
      refine ensures_pure ⟨hfirst.append hcode.1, fun x b hx hb => ?_⟩
      obtain ⟨b', hb', hsub⟩ := hfirst.stores_subset _ b hb
      have hmem : (x, true) ∈ rest := by simpa using hx
      exact subset_append_of_subset_right _ (List.Subset.trans hsub (hcode.2 x b' hmem hb'))
    | true =>
      refine (ensures_afterAssign_books h name).bind fun first s₁ hfirst => ?_
      refine (ensures_afterTuple rest hfirst.2.tracks (hbound' first)).bind
        fun code s₂ hcode => ?_
      refine ensures_pure ⟨hfirst.2.append hcode.1, fun x b hx hb => ?_⟩
      obtain heq | hmem := mem_cons.1 hx
      · obtain ⟨rfl, -⟩ := Prod.mk.inj heq
        rw [hb] at hfirst
        rw [hfirst.1]
        exact subset_append_left ..
      · obtain ⟨b', hb', hsub⟩ := hfirst.2.stores_subset _ b hb
        exact subset_append_of_subset_right _ (List.Subset.trans hsub (hcode.2 x b' hmem hb'))

end Lower

end Pine
