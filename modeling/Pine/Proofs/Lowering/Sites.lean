import Mathlib.Data.Option.Basic
import Pine.Compile
import Pine.Proofs.Grammar.Anchors
import Pine.Proofs.Lowering.Ensures
import Pine.Proofs.Script.Capture

/-!
# Places that keep state

The host keeps a series for each place of a script that needs one: for an offset into anything but a
variable, and for a call of a builtin that takes a series. A key tells the places apart. It is made
of a name and of the position of the place.

The name and the position can be read off a key. Suffixes share the position of what they follow, so
that different places of a source have one key if one follows the other and both have one name. Only
an offset can follow another place in this way, and all other places have keys of their own.

## Main results

* `Lowering.siteKey_inj`: a key tells its name and its position.
* `Lowering.holds_expr`: a series stands in a script only where a place keeps it.
* `Program.siteKey_eq_iff`: when two places of a source share a key.
-/

namespace Pine

open List

/-! ### Keys of places -/

namespace Lowering

open Script (eq_of_append_cons isDigit_of_mem_repr eq_of_repr_eq)

theorem isDigit_or_of_mem_toString {n : Int} {c : Char} (h : c ∈ (toString n).toList) :
    c.isDigit = true ∨ c = '-' := by
  rw [Int.toString_eq_repr, Int.repr_eq_if] at h
  split at h
  · exact .inl (isDigit_of_mem_repr h)
  · rw [String.toList_append] at h
    rcases mem_append.1 h with h | h
    · exact .inr (by simpa using h)
    · exact .inl (isDigit_of_mem_repr h)

theorem toString_int_inj {m n : Int} (h : toString m = toString n) : m = n := by
  -- a sign is no digit, so numbers of one sign only are written alike
  have hsign {i j : Nat} (h : i.repr = "-" ++ j.repr) : False := by
    have hmem : '-' ∈ i.repr.toList := by simp [h, String.toList_append]
    exact absurd (isDigit_of_mem_repr hmem) (by decide)
  rw [Int.toString_eq_repr, Int.toString_eq_repr, Int.repr_eq_if, Int.repr_eq_if] at h
  split at h <;> split at h
  · have := eq_of_repr_eq h
    omega
  · exact (hsign h).elim
  · exact (hsign h.symm).elim
  · rw [← String.toList_inj, String.toList_append, String.toList_append,
      append_cancel_left_eq, String.toList_inj] at h
    have := eq_of_repr_eq h
    omega

theorem toList_siteKey (name : String) (p : Pos) : (siteKey name p).toList =
    name.toList ++ '@' :: ((toString p.line).toList ++ ':' :: (toString p.column).toList) := by
  change (name ++ "@" ++ toString p.line ++ ":" ++ toString p.column).toList = _
  simp only [String.toList_append, append_assoc]
  rfl

/-- **A key names its place**: neither the name nor the position can be read in two ways. -/
theorem siteKey_inj {m n : String} {p q : Pos} (h : siteKey m p = siteKey n q) :
    m = n ∧ p = q := by
  have hnumber (i : Int) {c : Char} (hc : c.isDigit = false ∧ c ≠ '-') :
      c ∉ (toString i).toList := by
    intro hmem
    rcases isDigit_or_of_mem_toString hmem with h | h
    · rw [hc.1] at h
      cases h
    · exact hc.2 h
  have hplace (p : Pos) : '@' ∉ (toString p.line).toList ++ ':' :: (toString p.column).toList := by
    rw [mem_append, mem_cons]
    rintro (h | h | h)
    · exact hnumber p.line (by decide) h
    · cases h
    · exact hnumber p.column (by decide) h
  have htext := congrArg String.toList h
  rw [toList_siteKey, toList_siteKey] at htext
  obtain ⟨hname, hpos⟩ := eq_of_append_cons (hplace p) (hplace q) htext
  obtain ⟨hline, hcolumn⟩ := eq_of_append_cons (hnumber p.column (by decide))
    (hnumber q.column (by decide)) hpos
  refine ⟨String.toList_inj.1 hname, ?_⟩
  have hline := toString_int_inj (String.toList_inj.1 hline)
  have hcolumn := toString_int_inj (String.toList_inj.1 hcolumn)
  cases p
  cases q
  simp_all

/-! ### Series of nodes -/

end Lowering

namespace Script.Expr

/-- The key of the series that a call holds directly, as what is called or as its first
argument. -/
def siteKey? : Script.Expr → Option String
  | .call (.series key _) _ | .call (.atom _) (.series key _ :: _) => some key
  | _ => none

/-- Neither a series nor a call. -/
def isSimple : Script.Expr → Bool
  | .series .. | .call .. => false
  | _ => true

/-- Whether an expression is a series by itself. -/
def isSeries : Script.Expr → Bool
  | .series .. => true
  | _ => false

theorem isSeries_of_isSimple {e : Script.Expr} (h : e.isSimple = true) : e.isSeries = false := by
  cases e with
  | series => cases h
  | _ => rfl

theorem siteKey?_of_isSimple {e : Script.Expr} (h : e.isSimple = true) : e.siteKey? = none := by
  cases e with
  | series | call => cases h
  | _ => rfl

/-- A call without a bare series in it holds none directly. -/
theorem siteKey?_call {f : Script.Expr} {args : List Script.Expr} (hf : f.isSeries = false)
    (hargs : ∀ a ∈ args, a.isSeries = false) : (call f args).siteKey? = none := by
  unfold siteKey?
  split
  · next heq =>
    cases heq
    cases hf
  · next heq =>
    cases heq
    cases hargs _ mem_cons_self
  · rfl

end Script.Expr

namespace Expr

/-- The name in the key of a place: that of the function for a call. -/
def siteName : Expr → String
  | .call _ _ callee _ _ => callee.path
  | _ => "series"

/-- Whether an expression reads the value some bars ago. -/
def isIndex : Expr → Bool
  | .index .. => true
  | _ => false

theorem siteName_of_isIndex {e : Expr} (h : e.isIndex = true) : e.siteName = "series" := by
  cases e with
  | index => rfl
  | _ => cases h

/-- Whether an expression can keep a series: an offset, or a call of a function with a name. -/
def isSite : Expr → Bool
  | .index .. => true
  | .call _ _ callee _ _ => callee.path ≠ ""
  | _ => false

end Expr

namespace Lowering

open Lower

variable {env : Context}

/-- An expression of the source keeps a series under a key: lowering it gives a call that holds
the series. -/
def KeepsSeries (env : Context) (e : Expr) (key : String) : Prop :=
  ∃ bare s script s', expr env bare e s = .ok script s' ∧ script.siteKey? = some key

theorem isSimple_nameExpr (scopes : Scopes) (n : String) :
    (nameExpr env scopes n).isSimple = true := by
  unfold nameExpr
  repeat' split
  all_goals rfl

theorem isSimple_memberExpr? {scopes : Scopes} {e : Expr} {script : Script.Expr}
    (h : memberExpr? env scopes e = some script) : script.isSimple = true := by
  unfold memberExpr? constantExpr? at h
  dsimp only at h
  split at h
  · cases h
  · split at h
    · cases h
      rfl
    · cases h
      rfl
    · split at h
      · cases h
        rfl
      · cases h

theorem isSimple_wrap {bare : Bool} {e : Script.Expr} (h : e.isSimple = true) :
    (wrap bare e).isSimple = true := by
  cases bare with
  | false => rfl
  | true => exact h

/-- A script holds a series directly only if it stands for a place that keeps one, and then under
the key of that place. A series by itself stands for no expression. -/
def Holds (e : Expr) (script : Script.Expr) : Prop :=
  script.isSeries = false ∧
    ∀ key, script.siteKey? = some key → e.isSite = true ∧ key = siteKey e.siteName e.pos

theorem Holds.of_isSimple {e : Expr} {script : Script.Expr} (h : script.isSimple = true) :
    Holds e script := by
  refine ⟨Script.Expr.isSeries_of_isSimple h, fun key hkey => ?_⟩
  rw [Script.Expr.siteKey?_of_isSimple h] at hkey
  cases hkey

theorem Holds.call {e : Expr} {f : Script.Expr} {args : List Script.Expr} (hf : f.isSeries = false)
    (hargs : ∀ a ∈ args, a.isSeries = false) : Holds e (.call f args) := by
  refine ⟨rfl, fun key hkey => ?_⟩
  rw [Script.Expr.siteKey?_call hf hargs] at hkey
  cases hkey

theorem isSeries_options (named : List (String × Script.Expr)) :
    ∀ a ∈ options named, a.isSeries = false := by
  unfold options
  split
  · exact nofun
  · rintro _ (_ | ⟨_, ⟨⟩⟩)
    rfl

/-- The call of a builtin holds a series only under the key that it is given. -/
theorem siteKey?_builtinCall {b : Builtin} {key key' : String} {positional : List Script.Expr}
    {named : List (String × Script.Expr)} (hargs : ∀ a ∈ positional, a.isSeries = false)
    (h : (builtinCall b key positional named).siteKey? = some key') : key' = key := by
  unfold builtinCall at h
  dsimp only at h
  split at h
  · cases h
    rfl
  · have hctx : ∀ a ∈ (if b.takesContext then [Script.Expr.name "ctx"] else []),
        a.isSeries = false := by
      split
      · rintro _ (_ | ⟨_, ⟨⟩⟩)
        rfl
      · exact nofun
    rw [Script.Expr.siteKey?_call rfl (forall_mem_append.2
      ⟨forall_mem_append.2 ⟨hargs, isSeries_options named⟩, hctx⟩)] at h
    cases h

/-- What a call of a member can be by itself. -/
theorem memberCallForm?_cases {scopes : Scopes} {callee : Expr} {form : CallForm}
    (hform : memberCallForm? env scopes callee = some form) :
    (∃ p object property, callee = .member p object property) ∧
      ((∃ f, form = .method f) ∨ (∃ f, form = .receiver f) ∨ ∃ r, form = .construct r) := by
  unfold memberCallForm? at hform
  split at hform
  · next p object property =>
    refine ⟨⟨p, object, property, rfl⟩, ?_⟩
    rcases (Option.orElse_eq_some _ _ _).1 hform with hmethod | ⟨-, hconstruct⟩
    · obtain ⟨f, -, hmethod⟩ := Option.bind_eq_some_iff.1 hmethod
      obtain ⟨first, -, hmethod⟩ := Option.bind_eq_some_iff.1 hmethod
      split at hmethod
      · split at hmethod <;> cases hmethod
        · exact .inl ⟨f, rfl⟩
        · exact .inr (.inl ⟨f, rfl⟩)
      · cases hmethod
    · obtain ⟨record, -, hconstruct⟩ := Option.bind_eq_some_iff.1 hconstruct
      split at hconstruct <;> cases hconstruct
      exact .inr (.inr ⟨record, rfl⟩)
  · cases hform

/-- What a call that describes the indicator can be. -/
theorem describedForm?_cases {name : String} {key : Nat} {form : CallForm}
    (hform : describedForm? env name key = some form) :
    form = .silent ∨ (∃ id, form = .input id) ∨ ∃ id, form = .plot id := by
  unfold describedForm? at hform
  split at hform
  · cases hform
    exact .inl rfl
  · split at hform
    · obtain ⟨id, -, rfl⟩ := Option.map_eq_some_iff.1 hform
      exact .inr (.inl ⟨id, rfl⟩)
    · split at hform
      · obtain ⟨id, -, rfl⟩ := Option.map_eq_some_iff.1 hform
        exact .inr (.inr ⟨id, rfl⟩)
      · cases hform

/-- Methods are called as members, and builtins by their names. -/
theorem callForm_cases (env : Context) (scopes : Scopes) (callee : Expr) (key : Nat) :
    match callForm env scopes callee key with
    | .method _ | .receiver _ => ∃ p object property, callee = .member p object property
    | .builtin _ => callee.path ≠ ""
    | _ => True := by
  unfold callForm
  dsimp only
  cases hf : env.declarations.function? callee.path with
  | some f => trivial
  | none =>
    cases hm : memberCallForm? env scopes callee with
    | some form =>
      obtain ⟨hcallee, ⟨f, rfl⟩ | ⟨f, rfl⟩ | ⟨r, rfl⟩⟩ := memberCallForm?_cases hm
      · exact hcallee
      · exact hcallee
      · trivial
    | none =>
      cases hd : describedForm? env callee.path key with
      | some form =>
        obtain rfl | ⟨id, rfl⟩ | ⟨id, rfl⟩ := describedForm?_cases hd
        all_goals trivial
      | none =>
        by_cases hn : callee.path = ""
        · simp [hn]
        · cases hb : env.registry.find? callee.path with
          | none => simp [hn]
          | some b => simp [hn]

/-- What a call holds, if its arguments and what is called are no series by themselves. -/
theorem holds_call (bare : Bool) (p : Pos) (key : Nat) {callee : Expr} {args : List Arg}
    (types : List String)
    (hcallee : ∀ s, Ensures (expr env false callee) s fun f _ => f.isSeries = false)
    (hargs : ∀ s, Ensures (positionalArgs env args) s fun vs _ => ∀ v ∈ vs, v.isSeries = false)
    (s : State) : Ensures (expr env bare (.call p key callee args types)) s fun script _ =>
      Holds (.call p key callee args types) script := by
  rw [expr]
  refine ensures_get ?_
  have hform := callForm_cases env s.scopes callee key
  split
  case h_1 | h_4 =>
    exact ensures_bind fun _ _ => ensures_bind fun _ _ => ensures_bind fun _ _ =>
      ensures_pure ⟨rfl, fun _ h => by cases h⟩
  case h_2 =>
    dsimp only
    split
    all_goals exact ensures_bind fun _ _ => ensures_bind fun _ _ => ensures_bind fun _ _ =>
      ensures_bind fun _ _ => ensures_pure ⟨rfl, fun _ h => by cases h⟩
  case h_3 hmethod =>
    rw [hmethod] at hform
    obtain ⟨q, object, property, rfl⟩ := hform
    exact ensures_bind fun _ _ => ensures_pure_bind <| ensures_bind fun _ _ =>
      ensures_bind fun _ _ => ensures_bind fun _ _ => ensures_pure ⟨rfl, fun _ h => by cases h⟩
  case h_5 => exact ensures_pure (.of_isSimple rfl)
  case h_6 | h_7 => exact ensures_bind fun _ _ => ensures_pure (.of_isSimple rfl)
  case h_8 b hbuiltin =>
    rw [hbuiltin] at hform
    refine ensures_bind fun _ s₁ => (hargs s₁).bind fun vs s₂ hvs => ensures_bind fun named _ => ?_
    refine ensures_pure ⟨rfl, fun key' hkey => ⟨?_, siteKey?_builtinCall hvs hkey⟩⟩
    simpa [Expr.isSite] using hform
  case h_9 =>
    refine ensures_bind fun _ s₁ => (hcallee s₁).bind fun f s₂ hf => ?_
    refine (hargs s₂).bind fun vs s₃ hvs => ensures_bind fun named _ => ensures_pure ?_
    exact .call hf (forall_mem_append.2 ⟨hvs, isSeries_options named⟩)

mutual

/-- **A series stands in a script only where an offset or a builtin keeps it.** -/
theorem holds_expr : (e : Expr) → (bare : Bool) → (s : State) →
    Ensures (expr env bare e) s fun script _ => Holds e script
  | .missing, _, _ => ensures_fail _ _
  | .number .., _, _ | .string .., _, _ | .bool .., _, _ | .na .., _, _ | .color .., _, _ =>
    ensures_pure (.of_isSimple rfl)
  | .name .., _, _ => ensures_get (ensures_pure (.of_isSimple (isSimple_nameExpr _ _)))
  | .member .., _, _ => by
    refine ensures_get ?_
    split
    · next heq => exact ensures_pure (.of_isSimple (isSimple_memberExpr? heq))
    · exact ensures_bind fun _ _ => ensures_pure (.of_isSimple rfl)
  | .index p object offset, _, _ => by
    rw [expr]
    refine ensures_bind fun _ _ => ?_
    split
    · exact ensures_pure (.of_isSimple rfl)
    · refine ensures_bind fun _ _ => ensures_pure ⟨rfl, ?_⟩
      rintro _ ⟨⟩
      exact ⟨rfl, rfl⟩
  | .call p key callee args types, bare, s =>
    holds_call bare p key types (fun s => (holds_expr callee false s).mono fun _ _ h => h.1)
      (holds_positionalArgs args) s
  | .binary .., _, _ => ensures_bind fun _ _ => ensures_bind fun _ _ =>
    ensures_pure (.of_isSimple (isSimple_wrap rfl))
  | .unary p op operand, _, _ => by
    refine ensures_bind fun _ _ => ?_
    cases op with
    | other spelling => exact ensures_fail _ _
    | not | neg | plus => exact ensures_pure (.of_isSimple (isSimple_wrap rfl))
  | .ternary .., _, _ => ensures_bind fun _ _ => ensures_bind fun _ _ => ensures_bind fun _ _ =>
    ensures_pure (.of_isSimple (isSimple_wrap rfl))
  | .array .., _, _ => ensures_bind fun _ _ => ensures_pure (.of_isSimple rfl)
  | .switch .., _, _ => .inScope (ensures_bind fun _ _ => ensures_pure (.of_isSimple rfl))
  | .ifElse .., _, _ => .inScope (ensures_bind fun _ _ => ensures_bind fun _ _ =>
    ensures_bind fun _ _ => ensures_pure (.of_isSimple rfl))

theorem holds_positionalArgs : (args : List Arg) → (s : State) →
    Ensures (positionalArgs env args) s fun values _ => ∀ v ∈ values, v.isSeries = false
  | [], _ => ensures_pure nofun
  | .mk name value :: args, s => by
    have hvalue := holds_expr value true s
    have hargs := holds_positionalArgs args
    unfold positionalArgs
    split
    · refine hvalue.bind fun v s' hv => (hargs s').bind fun vs s'' hvs => ?_
      exact ensures_pure (forall_mem_cons.2 ⟨hv.1, hvs⟩)
    · exact hargs s

end

/-- A place that keeps a series has a key that tells its name and its position. -/
theorem KeepsSeries.isSite {e : Expr} {key : String} (h : KeepsSeries env e key) :
    e.isSite = true ∧ key = siteKey e.siteName e.pos := by
  obtain ⟨bare, s, script, s', hscript, hkey⟩ := h
  exact (holds_expr e bare s script s' hscript).2 key hkey

end Lowering

/-! ### Places that share a key -/

namespace Expr

theorem isSuffix_of_isSite {e : Expr} (h : e.isSite = true) : e.isSuffix = true := by
  cases e with
  | index | call => rfl
  | _ => cases h

theorem path_of_isSite {e : Expr} (h : e.isSite = true) : e.path = "" := by
  cases e with
  | index | call => rfl
  | _ => cases h

/-- What a dotted name follows are dotted names. -/
theorem path_ne_of_mem_stem : (e : Expr) → e.path ≠ "" → ∀ object ∈ e.stem, object.path ≠ ""
  | member p object property, h => by
    have hobject : object.path ≠ "" := by
      intro hnone
      simp [path, hnone] at h
    exact forall_mem_cons.2 ⟨hobject, path_ne_of_mem_stem object hobject⟩
  | missing, h | index .., h | call .., h => absurd rfl h
  | number .., _ | string .., _ | bool .., _ | na .., _ | color .., _ | name .., _ | binary .., _
  | unary .., _ | ternary .., _ | array .., _ | switch .., _ | ifElse .., _ => nofun

/-- A place that follows another one reads the value some bars ago: what a call by name follows
are the names in front of it. -/
theorem isIndex_of_mem_stem {d e : Expr} (hd : d.isSite = true) (he : e.isSite = true)
    (h : e ∈ d.stem) : d.isIndex = true := by
  cases d with
  | index => rfl
  | call p key callee args types =>
    have hcallee : callee.path ≠ "" := by simpa [isSite] using hd
    rcases mem_cons.1 h with rfl | h
    · exact absurd (path_of_isSite he) hcallee
    · exact absurd (path_of_isSite he) (path_ne_of_mem_stem callee hcallee e h)
  | _ => cases hd

end Expr

open Lowering (Context KeepsSeries)

/-- **Two places of a source share the key of a series in one case only**: the outer one is an
offset that follows the other, directly or in turn, and the other is an offset too or the call of a
builtin with the name `series`. In this case they always share it. -/
theorem Program.siteKey_eq_iff {limits : Limits} {source : List Char} {program : Program}
    (h : Source.read limits source = .ok program) (env : Context) :
    program.keyed.nodes.Pairwise fun m n => ∀ d e j k, m = .expr d → n = .expr e →
      KeepsSeries env d j → KeepsSeries env e k →
      (j = k ↔ d.isIndex = true ∧ e ∈ d.stem ∧ e.siteName = "series") := by
  have haligned : Aligned (links program.keyed.nodes) := by
    rw [Program.links_keyed]
    exact Program.aligned_read h
  have hnodup : (anchors (links program.keyed.nodes)).Nodup := by
    rw [Program.links_keyed]
    exact Program.nodup_anchors_read h
  refine (Program.pairwise_apart haligned hnodup).imp_of_mem ?_
  rintro _ _ hmem - happart d e j k rfl rfl hj hk
  obtain ⟨hd, rfl⟩ := hj.isSite
  obtain ⟨he, rfl⟩ := hk.isSite
  constructor
  · intro heq
    obtain ⟨hname, hpos⟩ := Lowering.siteKey_inj heq
    have hstem := happart (Expr.isSuffix_of_isSite hd) (Expr.isSuffix_of_isSite he) hpos
    have hindex := Expr.isIndex_of_mem_stem hd he hstem
    exact ⟨hindex, hstem, hname.symm.trans (Expr.siteName_of_isIndex hindex)⟩
  · rintro ⟨hindex, hstem, hname⟩
    rw [Program.pos_of_mem_stem haligned hmem e hstem, hname, Expr.siteName_of_isIndex hindex]

/-- Both offsets of one chain keep a series, and under one key. -/
theorem Program.siteKey_eq_iff_offsets :
    let p : Pos := ⟨1, 1⟩
    let call (key : Nat) := Expr.call p key (.name p "f") [.mk "" (.name ⟨1, 3⟩ "x")] []
    let inner (key : Nat) := Expr.index p (call key) (.number ⟨1, 6⟩ "1")
    let outer (key : Nat) := Expr.index p (inner key) (.number ⟨1, 9⟩ "2")
    let env : Context := ⟨.empty, {}, {}, [], 0⟩
    Source.read .standard "f(x)[1][2]\n".toList = .ok [.expr p (outer 0)] ∧
      Program.keyed [.expr p (outer 0)] = [.expr p (outer 1)] ∧
      KeepsSeries env (outer 1) "series@1:1" ∧ KeepsSeries env (inner 1) "series@1:1" ∧
      ("series@1:1" = "series@1:1" ↔
        (outer 1).isIndex = true ∧ inner 1 ∈ (outer 1).stem ∧ (inner 1).siteName = "series") := by
  intro p call inner outer env
  have hread : Source.read .standard "f(x)[1][2]\n".toList = .ok [.expr p (outer 0)] := by
    unfold Source.read
    dsimp only
    rw [Program.parse_eq_program]
    with_unfolding_all rfl
  have hkeeps (e : Expr) (h : (match Lowering.expr env true e {} with
      | .ok script _ => script.siteKey?
      | .error .. => none) = some "series@1:1") : KeepsSeries env e "series@1:1" := by
    split at h
    · next script s heq => exact ⟨true, {}, script, s, heq, h⟩
    · cases h
  have houter := hkeeps (outer 1) (by decide +kernel)
  have hinner := hkeeps (inner 1) (by decide +kernel)
  have hpairs := pairwise_iff_getElem.1 (Program.siteKey_eq_iff hread env)
  exact ⟨hread, rfl, houter, hinner,
    hpairs 1 2 (by decide) (by decide) (by decide) _ _ _ _ rfl rfl houter hinner⟩

end Pine
