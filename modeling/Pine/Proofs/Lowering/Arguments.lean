import Pine.Proofs.Lowering.Sites

/-!
# Arguments in their slots

A call of a function, a method or a type of the program passes its arguments by position. The
object of a method of a builtin type and the positional arguments come first, in their order; each
named argument stands where its parameter does; and what is left open in front of the last one is
undefined.
-/

namespace Pine.Lowering

open Lower List

/-! ### Slots -/

/-- The values of positional and named arguments in the slots of parameters, and nothing else. -/
structure Filled (params : List String) (given : List Script.Expr)
    (named : List (String × Script.Expr)) (slots : List Script.Expr) : Prop where
  /-- The positional values come first. -/
  front : ∀ i < given.length, slots[i]? = given[i]?
  /-- A named value stands in the slot of its parameter. -/
  placed : ∀ a ∈ named, ∀ i : Nat, params[i]? = some a.1 → slots[i]? = some a.2
  /-- A slot without a value is undefined. -/
  gap : ∀ i < slots.length, given.length ≤ i → (∀ a ∈ named, params[i]? ≠ some a.1) →
    slots[i]? = some .undefined
  /-- The last slot has a value. -/
  last : slots.length = given.length ∨
    ∃ a ∈ named, ∃ i : Nat, params[i]? = some a.1 ∧ slots.length = i + 1

theorem length_place (slots : List Script.Expr) (i : Nat) (value : Script.Expr) :
    (place slots i value).length = max slots.length (i + 1) := by
  rw [place, length_set, length_append, length_replicate]
  omega

theorem getElem?_place_self (slots : List Script.Expr) (i : Nat) (value : Script.Expr) :
    (place slots i value)[i]? = some value := by
  refine getElem?_set_self ?_
  rw [length_append, length_replicate]
  omega

theorem getElem?_place_of_lt {slots : List Script.Expr} {i j : Nat} (value : Script.Expr)
    (hj : j < slots.length) (hne : j ≠ i) : (place slots i value)[j]? = slots[j]? := by
  rw [place, getElem?_set_ne hne.symm, getElem?_append_left hj]

theorem getElem?_place_gap {slots : List Script.Expr} {i j : Nat} (value : Script.Expr)
    (hj : slots.length ≤ j) (hlt : j < i) : (place slots i value)[j]? = some .undefined := by
  rw [place, getElem?_set_ne (Nat.ne_of_gt hlt), getElem?_append_right hj,
    getElem?_replicate, if_pos (by omega)]

section Filled

variable {params : List String} {given slots : List Script.Expr}
  {named : List (String × Script.Expr)}

/-- One more named argument in a slot that is still free. -/
theorem Filled.place (h : Filled params given named slots) (hnodup : params.Nodup) {name : String}
    (value : Script.Expr) {i : Nat} (hi : params[i]? = some name) (hfree : given.length ≤ i)
    (hnew : name ∉ named.map Prod.fst) :
    Filled params given (named ++ [(name, value)]) (place slots i value) := by
  -- a slot of another parameter stays as it was
  have hkeep {j : Nat} {x : Script.Expr} (hj : slots[j]? = some x) (hne : j ≠ i) :
      (Lowering.place slots i value)[j]? = some x := by
    rw [getElem?_place_of_lt value (List.getElem?_eq_some_iff.1 hj).1 hne, hj]
  have hother {a : String × Script.Expr} (ha : a ∈ named) {j : Nat} (hj : params[j]? = some a.1) :
      j ≠ i := by
    rintro rfl
    exact hnew (Option.some.inj (hj.symm.trans hi) ▸ mem_map_of_mem ha)
  refine ⟨fun j hj => ?_, fun a ha j hj => ?_, fun j hj hge hno => ?_, ?_⟩
  · rw [getElem?_eq_getElem hj]
    exact hkeep ((h.front j hj).trans (getElem?_eq_getElem hj)) (by omega)
  · rcases mem_append.1 ha with ha | ha
    · exact hkeep (h.placed a ha j hj) (hother ha hj)
    · obtain rfl := mem_singleton.1 ha
      have hlt := (List.getElem?_eq_some_iff.1 hj).1
      obtain rfl := (getElem?_inj hlt hnodup).1 (hj.trans hi.symm)
      exact getElem?_place_self slots j value
  · have hne : j ≠ i := by
      rintro rfl
      exact hno (name, value) (by simp) hi
    rw [length_place] at hj
    by_cases hlt : j < slots.length
    · rw [getElem?_place_of_lt value hlt hne]
      exact h.gap j hlt hge fun a ha => hno a (mem_append_left _ ha)
    · exact getElem?_place_gap value (by omega) (by omega)
  · rw [length_place]
    by_cases hlast : slots.length ≤ i + 1
    · exact .inr ⟨(name, value), by simp, i, hi, by omega⟩
    · rw [Nat.max_eq_left (by omega)]
      exact h.last.imp_right fun ⟨a, ha, hlen⟩ => ⟨a, mem_append_left _ ha, hlen⟩

/-- Arranging puts every value into its slot. -/
theorem filled_arrange (hnodup : params.Nodup) (hnames : (named.map Prod.fst).Nodup)
    (hfree : ∀ name ∈ named.map Prod.fst, ∃ i, params[i]? = some name ∧ given.length ≤ i) :
    Filled params given named (arrange params given named []) := by
  -- the arguments that are placed already stand in front of those still to come
  suffices hfold : ∀ (rest done : List (String × Script.Expr)) (slots : List Script.Expr),
      done ++ rest = named → Filled params given done slots →
      Filled params given named
        (rest.foldl (fun slots a => Lowering.place slots (params.idxOf a.1) a.2) slots) by
    have hstart : Filled params given [] given :=
      ⟨fun _ _ => rfl, nofun, fun i hi hge => absurd hi (by omega), .inl rfl⟩
    have h := hfold named [] given rfl hstart
    rwa [arrange, show options [] = [] from rfl, List.append_nil]
  intro rest
  induction rest with
  | nil =>
    rintro done slots rfl h
    rwa [List.append_nil]
  | cons a rest ih =>
    intro done slots hsplit h
    obtain ⟨i, hi, hge⟩ := hfree a.1 (by simp [← hsplit])
    obtain ⟨hlt, hget⟩ := List.getElem?_eq_some_iff.1 hi
    have hidx : params.idxOf a.1 = i := by rw [← hget, hnodup.idxOf_getElem]
    rw [← hsplit, map_append, nodup_append] at hnames
    rw [foldl_cons, hidx]
    refine ih (done ++ [a]) _ (by rw [append_assoc]; exact hsplit) (h.place hnodup a.2 hi hge ?_)
    exact fun hmem => hnames.2.2 _ hmem a.1 (by simp) rfl

end Filled

/-! ### Arguments as expressions -/

/-- The positional arguments of a call. -/
def positionals (args : List Arg) : List Expr := (args.filter (·.name = "")).map Arg.value

/-- The named arguments of a call. -/
def nameds (args : List Arg) : List Arg := args.filter (·.name ≠ "")

theorem positionalArgs_eq (env : Context) (args : List Arg) :
    positionalArgs env args = exprs env (positionals args) := by
  induction args with
  | nil => rw [positionalArgs, positionals, filter_nil, map_nil, exprs]
  | cons a args ih =>
    obtain ⟨name, value⟩ := a
    rw [positionalArgs, ih, positionals, positionals]
    by_cases hname : name = "" <;> simp [hname, Arg.name, exprs, Arg.value]

theorem namedArgs_eq (env : Context) (keep : String → Bool) (args : List Arg) :
    namedArgs env keep args =
      (((nameds args).filter fun a => keep a.name).map Arg.name).zip <$>
        exprs env (((nameds args).filter fun a => keep a.name).map Arg.value) := by
  induction args with
  | nil =>
    rw [namedArgs, nameds, filter_nil, filter_nil, map_nil, map_nil, exprs]
    rfl
  | cons a args ih =>
    obtain ⟨name, value⟩ := a
    rw [namedArgs, ih, nameds, nameds]
    by_cases hname : name = "" <;> by_cases hkeep : keep name = true <;>
      simp [hname, hkeep, Arg.name, Arg.value, exprs]

theorem bind_eq_ok {α β : Type} {step : Lower α} {next : α → Lower β} {s s' : State} {b : β} :
    (step >>= next) s = .ok b s' ↔ ∃ a s₁, step s = .ok a s₁ ∧ next a s₁ = .ok b s' := by
  change EStateM.bind step next s = _ ↔ _
  rw [EStateM.bind]
  cases step s with
  | ok a s₁ =>
    refine ⟨fun h => ⟨a, s₁, rfl, h⟩, ?_⟩
    rintro ⟨a, s₁, ⟨⟩, h⟩
    exact h
  | error err s₁ => exact ⟨nofun, nofun⟩

theorem length_exprs {env : Context} : (es : List Expr) → {s s' : State} → {xs : List Script.Expr} →
    exprs env es s = .ok xs s' → xs.length = es.length
  | [], s, s', xs, h => by
    rw [exprs] at h
    cases h
    rfl
  | e :: es, s, s', xs, h => by
    rw [exprs] at h
    obtain ⟨x, s₁, -, h⟩ := bind_eq_ok.1 h
    obtain ⟨ys, s₂, hys, h⟩ := bind_eq_ok.1 h
    cases h
    rw [length_cons, length_cons, length_exprs es hys]

/-! ### Calls of the program's own -/

namespace CallForm

/-- The parameters whose slots a call of the program's own fills; the object of a method of a type
of the program has no slot. -/
def params? : CallForm → Option (List String)
  | function f | receiver f => some (f.params.map Param.name)
  | method f => some ((f.params.drop 1).map Param.name)
  | construct r => some r.fields
  | _ => none

/-- The object that a call passes in front of its arguments. -/
def leading : CallForm → Expr → List Expr
  | receiver _, .member _ object _ => [object]
  | _, _ => []

/-- What is called. -/
def target (env : Context) : CallForm → Expr → Lower Script.Expr
  | function f, _ | receiver f, _ => return .name (Script.safeName f.name)
  | method _, .member _ object property =>
    return .member (← expr env false object) (Script.safeMember property)
  | construct r, _ => return .member (.name (Script.safeName r.name)) "new"
  | _, _ => return .undefined

end CallForm

variable {env : Context} {s s' : State} {callee : Expr} {key : Nat} {args : List Arg}
  {params : List String} {form : CallForm}

/-- A call of the program's own lowers what is called, its positional arguments and its named
arguments one after another, and arranges them. -/
theorem call_eq (bare : Bool) (p : Pos) (types : List String)
    (hform : callForm env s.scopes callee key = form) (hparams : form.params? = some params)
    (hknown : ∀ a ∈ nameds args, a.name ∈ params) :
    expr env bare (.call p key callee args types) s = (do
      let target ← form.target env callee
      let given ← exprs env (form.leading callee ++ positionals args)
      let values ← exprs env ((nameds args).map Arg.value)
      return Script.Expr.call target
        (arrange params given (((nameds args).map Arg.name).zip values) [])) s := by
  have hnamed : namedArgs env (fun name => name ∈ params) args =
      ((nameds args).map Arg.name).zip <$> exprs env ((nameds args).map Arg.value) := by
    rw [namedArgs_eq, filter_eq_self.2 (by simpa using hknown)]
  have hextra : namedArgs env (fun name => name ∉ params) args = pure [] := by
    rw [namedArgs_eq, filter_eq_nil_iff.2 (by simpa using hknown), map_nil, map_nil,
      exprs]
    rfl
  have hcases := callForm_cases env s.scopes callee key
  rw [hform] at hcases
  have hget (next : State → Lower Script.Expr) : (get >>= next) s = next s s := rfl
  rw [expr, hget, hform]
  cases form with
  | function f | construct r =>
    obtain rfl := Option.some.inj hparams
    simp only [CallForm.target, CallForm.leading, positionalArgs_eq, hnamed, hextra, pure_bind,
      map_eq_pure_bind, bind_assoc, nil_append]
  | receiver f =>
    obtain rfl := Option.some.inj hparams
    obtain ⟨q, object, property, rfl⟩ := hcases
    simp only [CallForm.target, CallForm.leading, positionalArgs_eq, hnamed, hextra, pure_bind,
      map_eq_pure_bind, bind_assoc, singleton_append, exprs]
  | method f =>
    obtain rfl := Option.some.inj hparams
    obtain ⟨q, object, property, rfl⟩ := hcases
    simp only [CallForm.target, CallForm.leading, positionalArgs_eq, hnamed, hextra, pure_bind,
      map_eq_pure_bind, bind_assoc, nil_append]
  | _ => cases hparams

/-- **Every argument of a call stands in its slot, and nothing else is passed.** Let a call of a
function, a method or a type of the program have named arguments with different names, each for a
parameter that neither the object nor a positional argument fills. The call has a script if what is
called, the object that is passed in front and the arguments have scripts, and these fill the slots
of the parameters. -/
theorem call_fills_slots {e : Script.Expr} (bare : Bool) (p : Pos) (types : List String)
    (hform : callForm env s.scopes callee key = form) (hparams : form.params? = some params)
    (hnodup : params.Nodup) (hnames : ((nameds args).map Arg.name).Nodup)
    (hfree : ∀ a ∈ nameds args, ∃ i, params[i]? = some a.name ∧
      (form.leading callee ++ positionals args).length ≤ i) :
    expr env bare (.call p key callee args types) s = .ok e s' ↔
      ∃ target s₁ given s₂ values slots, form.target env callee s = .ok target s₁ ∧
        exprs env (form.leading callee ++ positionals args) s₁ = .ok given s₂ ∧
        exprs env ((nameds args).map Arg.value) s₂ = .ok values s' ∧
        slots = arrange params given (((nameds args).map Arg.name).zip values) [] ∧
        Filled params given (((nameds args).map Arg.name).zip values) slots ∧
        e = .call target slots := by
  have hknown (a : Arg) (ha : a ∈ nameds args) : a.name ∈ params := by
    obtain ⟨i, hi, -⟩ := hfree a ha
    exact mem_of_getElem? hi
  rw [call_eq bare p types hform hparams hknown]
  constructor
  · intro h
    obtain ⟨target, s₁, htarget, h⟩ := bind_eq_ok.1 h
    obtain ⟨given, s₂, hgiven, h⟩ := bind_eq_ok.1 h
    obtain ⟨values, s₃, hvalues, h⟩ := bind_eq_ok.1 h
    cases h
    refine ⟨target, s₁, given, s₂, values, _, htarget, hgiven, hvalues, rfl, ?_, rfl⟩
    have hzip : (((nameds args).map Arg.name).zip values).map Prod.fst =
        (nameds args).map Arg.name := map_fst_zip (by simp [length_exprs _ hvalues])
    refine filled_arrange hnodup (by rwa [hzip]) ?_
    rw [hzip, length_exprs _ hgiven]
    exact forall_mem_map.2 hfree
  · rintro ⟨target, s₁, given, s₂, values, _, htarget, hgiven, hvalues, rfl, -, rfl⟩
    refine bind_eq_ok.2 ⟨target, s₁, htarget, bind_eq_ok.2 ⟨given, s₂, hgiven, ?_⟩⟩
    exact bind_eq_ok.2 ⟨values, s', hvalues, rfl⟩

/-- A method of strings whose last parameter is given by name, in front of its second one. -/
theorem call_fills_slots_gap :
    let params : List Param := [⟨"s", "string"⟩, ⟨"left", ""⟩, ⟨"right", ""⟩, ⟨"fill", ""⟩]
    let env : Context :=
      ⟨.empty, {}, { functions := [⟨"pad", params, true, .missing⟩] }, [], 1⟩
    let call : Expr := .call ⟨1, 1⟩ 0 (.member ⟨1, 1⟩ (.string ⟨1, 1⟩ "a") "pad")
      [.mk "fill" (.string ⟨1, 1⟩ "c"), .mk "" (.string ⟨1, 1⟩ "b")] []
    let slots : List Script.Expr := [.literal "a", .literal "b", .undefined, .literal "c"]
    expr env true call {} = .ok (.call (.name "pad") slots) {} ∧
      ∃ given values, Filled ["s", "left", "right", "fill"] given (["fill"].zip values) slots := by
  intro params env call slots
  have hcall : expr env true call {} = .ok (.call (.name "pad") slots) {} := by
    unfold call slots env params
    with_unfolding_all rfl
  refine ⟨hcall, ?_⟩
  obtain ⟨_, _, given, _, values, _, -, -, -, -, hfilled, heq⟩ :=
    (call_fills_slots true ⟨1, 1⟩ [] rfl rfl (by decide) (by decide)
      (forall_mem_singleton.2 ⟨3, rfl, by decide⟩)).1 hcall
  cases heq
  exact ⟨given, values, hfilled⟩

end Pine.Lowering
