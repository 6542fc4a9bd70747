import Mathlib.Data.Option.Basic
import Pine.Proofs.Lowering.Twin

/-!
# Names, calls and strings

What a name, a member or a call means does not depend on strings: it is decided by dotted names, by
the open scopes, and by what the program declares and the registry knows. And what it means has a
script that is well-spelled, since declared names are identifiers.
-/

namespace Pine

namespace Lowering

open Script

variable {A : String → Prop} {r : Rewording} {env env' : Context} {scopes : Scopes}

/-! ### Declarations of the program -/

theorem function?_reword (h : env.Twin A r env') (name : String) :
    env'.declarations.function? name =
      (env.declarations.function? name).map (Function.reword r) := by
  rw [Declarations.function?, h.functions, List.find?_map]
  rfl

theorem record?_reword (h : env.Twin A r env') (name : String) :
    env'.declarations.record? name = (env.declarations.record? name).map (Record.reword r) := by
  rw [Declarations.record?, h.records, List.find?_map]
  rfl

theorem method?_reword (h : env.Twin A r env') (name : String) :
    env'.declarations.method? name = (env.declarations.method? name).map (Function.reword r) := by
  rw [Declarations.method?, Declarations.method?, function?_reword h]
  cases env.declarations.function? name with
  | none => rfl
  | some g => cases hm : g.isMethod <;> simp [Option.filter, Function.reword, hm]

theorem isOwnValue_reword (h : env.Twin A r env') : (e : Expr) →
    isOwnValue env' scopes (e.reword r) = isOwnValue env scopes e
  | .name _ n => by simp only [Expr.reword, isOwnValue, record?_reword h, Option.isSome_map]
  | .member _ object _ => by
    simp only [Expr.reword, isOwnValue, isOwnValue_reword h object]
  | .missing | .number .. | .string .. | .bool .. | .na .. | .color .. | .index .. | .call ..
  | .binary .. | .unary .. | .ternary .. | .array .. | .switch .. | .ifElse .. => rfl

theorem isSilent_reword (h : env.Twin A r env') (e : Expr) :
    isSilent env' (e.reword r) = isSilent env e := by
  cases e with
  | call p key callee args types =>
    simp only [Expr.reword, isSilent, Expr.path_reword, function?_reword h,
      Option.isNone_map]
  | _ => rfl

/-! ### Names and members -/

theorem nameExpr_twin (h : env.Twin A r env') (n : String) :
    nameExpr env' scopes n = nameExpr env scopes n := by
  rw [nameExpr, nameExpr, h.registry]

theorem spelled_nameExpr (h : env.Twin A r env') {n : String} (hn : isIdentifier n = true) :
    Spelled A (nameExpr env scopes n).leaves := by
  have hname : Spelled A (Script.Expr.name (safeName n)).leaves :=
    spelled_cons.2 ⟨isIdentifier_safeName hn, spelled_nil⟩
  unfold nameExpr
  split
  · exact hname
  split
  · exact spelled_cons.2 ⟨h.plain _ (by decide), spelled_nil⟩
  split
  · exact hname
  split
  · next b hb => exact spelled_cons.2 ⟨h.target n b hb, spelled_nil⟩
  · exact hname

theorem memberExpr?_reword (h : env.Twin A r env') (e : Expr) :
    memberExpr? env' scopes (e.reword r) = memberExpr? env scopes e := by
  rw [memberExpr?, memberExpr?, isOwnValue_reword h, Expr.path_reword, constantExpr?,
    constantExpr?, h.registry]

theorem spelled_memberExpr? (h : env.Twin A r env') {e : Expr} {e' : Script.Expr}
    (he : memberExpr? env scopes e = some e') : Spelled A e'.leaves := by
  unfold memberExpr? at he
  split at he
  · cases he
  · unfold constantExpr? at he
    dsimp only at he
    split at he
    · cases he
      exact spelled_nil
    · next b _ hb =>
      cases he
      exact spelled_cons.2 ⟨h.target _ b hb, spelled_nil⟩
    · split at he
      · cases he
        exact spelled_nil
      · cases he

/-! ### Forms of calls -/

/-- The form of a call with changed strings. -/
def CallForm.reword (r : Rewording) : CallForm → CallForm
  | .function f => .function (f.reword r)
  | .receiver f => .receiver (f.reword r)
  | .method f => .method (f.reword r)
  | .construct record => .construct (record.reword r)
  | .silent => .silent
  | .input id => .input id
  | .plot id => .plot id
  | .builtin b => .builtin b
  | .plain => .plain

theorem memberCallForm?_reword (h : env.Twin A r env') (callee : Expr) :
    memberCallForm? env' scopes (callee.reword r) =
      (memberCallForm? env scopes callee).map (CallForm.reword r) := by
  cases callee with
  | member p object property =>
    simp only [Expr.reword, memberCallForm?, method?_reword h, record?_reword h,
      isOwnValue_reword h, Expr.path_reword, Option.isSome_map]
    -- the two ways are independent of each other, so each is compared on its own
    have hconstruct : ∀ o : Option Record,
        (o.map (Record.reword r) >>= fun record =>
            if property = "new" then some (CallForm.construct record) else none) =
          (o >>= fun record =>
            if property = "new" then some (CallForm.construct record) else none).map
              (CallForm.reword r) := by
      intro o
      cases o with
      | none => rfl
      | some record => by_cases hn : property = "new" <;> simp [hn, CallForm.reword]
    cases env.declarations.method? property with
    | none => exact hconstruct _
    | some f =>
      cases hp : f.params.head? with
      | none =>
        simp only [Option.map_some, Option.bind_eq_bind, Option.bind_some, Function.reword, hp,
          Option.bind_none]
        exact hconstruct _
      | some first =>
        simp only [Option.map_some, Option.bind_eq_bind, Option.bind_some, Function.reword, hp]
        cases isOwnValue env scopes object with
        | true => cases (env.declarations.record? (baseType first.type)).isSome <;> rfl
        | false => exact hconstruct _
  | _ => rfl

theorem describedForm?_twin (h : env.Twin A r env') (name : String) (key : Nat) :
    describedForm? env' name key =
      (describedForm? env name key).map (CallForm.reword r) := by
  unfold describedForm?
  rw [h.inputIds, h.plotIds]
  split
  · rfl
  · split
    · cases env.indicator.inputIds.lookup key <;> rfl
    · split
      · cases env.indicator.plotIds.lookup key <;> rfl
      · rfl

/-- The form of a call does not depend on strings. -/
theorem callForm_reword (h : env.Twin A r env') (callee : Expr) (key : Nat) :
    callForm env' scopes (callee.reword r) key =
      (callForm env scopes callee key).reword r := by
  simp only [callForm, Expr.path_reword, function?_reword h, memberCallForm?_reword h,
    describedForm?_twin h, h.registry]
  cases env.declarations.function? callee.path with
  | some f => rfl
  | none =>
    cases memberCallForm? env scopes callee with
    | some form => rfl
    | none =>
      cases describedForm? env callee.path key with
      | some form => rfl
      | none =>
        by_cases hn : callee.path = ""
        · simp [hn, CallForm.reword]
        · cases hf : env.registry.find? callee.path <;> simp [hn, CallForm.reword]

/-- The names of a form of call are identifiers, and a builtin has a target with the property
`A`. -/
def CallForm.Spelled (A : String → Prop) : CallForm → Prop
  | .function f | .receiver f => isIdentifier f.name = true
  | .construct record => isIdentifier record.name = true
  | .builtin b => A b.target
  | _ => True

theorem isIdentifier_function? (h : env.Twin A r env') {name : String} {f : Function}
    (hf : env.declarations.function? name = some f) : isIdentifier f.name = true :=
  h.functionName f (List.mem_of_find?_eq_some hf)

theorem isIdentifier_record? (h : env.Twin A r env') {name : String} {record : Record}
    (hr : env.declarations.record? name = some record) : isIdentifier record.name = true :=
  h.recordName record (List.mem_of_find?_eq_some hr)

theorem memberCallForm?_spelled (h : env.Twin A r env') {callee : Expr} {form : CallForm}
    (hform : memberCallForm? env scopes callee = some form) : form.Spelled A := by
  unfold memberCallForm? at hform
  split at hform
  · next object property =>
    rcases (Option.orElse_eq_some _ _ _).1 hform with hmethod | ⟨-, hconstruct⟩
    · obtain ⟨f, hf, hmethod⟩ := Option.bind_eq_some_iff.1 hmethod
      obtain ⟨first, -, hmethod⟩ := Option.bind_eq_some_iff.1 hmethod
      have hname := isIdentifier_function? h (Option.eq_some_of_filter_eq_some hf)
      split at hmethod
      · split at hmethod <;> cases hmethod
        · trivial
        · exact hname
      · cases hmethod
    · obtain ⟨record, hr, hconstruct⟩ := Option.bind_eq_some_iff.1 hconstruct
      split at hconstruct
      · cases hconstruct
        exact isIdentifier_record? h hr
      · cases hconstruct
  · cases hform

theorem describedForm?_spelled {name : String} {key : Nat} {form : CallForm}
    (hform : describedForm? env name key = some form) : form.Spelled A := by
  unfold describedForm? at hform
  split at hform
  · cases hform
    trivial
  · split at hform
    · obtain ⟨id, -, rfl⟩ := Option.map_eq_some_iff.1 hform
      trivial
    · split at hform
      · obtain ⟨id, -, rfl⟩ := Option.map_eq_some_iff.1 hform
        trivial
      · cases hform

theorem callForm_spelled (h : env.Twin A r env') (callee : Expr) (key : Nat) :
    (callForm env scopes callee key).Spelled A := by
  unfold callForm
  dsimp only
  cases hf : env.declarations.function? callee.path with
  | some f => exact isIdentifier_function? h hf
  | none =>
    cases hm : memberCallForm? env scopes callee with
    | some form => exact memberCallForm?_spelled h hm
    | none =>
      cases hd : describedForm? env callee.path key with
      | some form => exact describedForm?_spelled hd
      | none =>
        by_cases hn : callee.path = ""
        · simp [hn, CallForm.Spelled]
        · cases hb : env.registry.find? callee.path with
          | none => simp [hn, CallForm.Spelled]
          | some b => simpa [hn, CallForm.Spelled] using h.target _ b hb

end Lowering

end Pine
