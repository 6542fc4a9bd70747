import Pine.Proofs.Grammar.State

/-!
# What a rule does to the state of the parser

A rule that is allowed more rounds than there are tokens left always has an answer, a value or an
error of the source. It leaves the depth as it was, also where it fails, and never moves the cursor
back; an expression or a statement moves the cursor on. So the loop over the statements of a program
goes round at most once for each token.
-/

namespace Pine.Rule

open Grammar

/-- The parsing functions. -/
inductive Parts.IsRule (r : Parts) : {α : Type} → Rule α → Prop
  | arg : IsRule r r.arg
  | args : IsRule r r.args
  | simple : IsRule r r.simple
  | block : IsRule r r.block
  | body : IsRule r r.body
  | arm : IsRule r r.arm
  | switchParts : IsRule r r.switchParts
  | ifParts : IsRule r (r.ifParts r.fuel)
  | primary : IsRule r r.primary
  | suffixes (e : Expr) : IsRule r (r.suffixes r.fuel e)
  | suffixed : IsRule r r.suffixed
  | unary : IsRule r (r.unary r.fuel)
  | binary (levels : List (List BinaryOp)) : IsRule r (r.binary levels)
  | ternary : IsRule r r.ternary
  | expression : IsRule r r.expression
  | declValue (head : DeclHead) : IsRule r (r.declValue head)
  | param : IsRule r r.param
  | funcHead : IsRule r r.funcHead
  | funcBody (head : FuncHead) (isMethod : Bool) : IsRule r (r.funcBody head isMethod)
  | field : IsRule r r.field
  | typeDecl : IsRule r r.typeDecl
  | forIn (pos : Pos) (index item : String) : IsRule r (r.forIn pos index item)
  | forLoop : IsRule r r.forLoop
  | importLib : IsRule r r.importLib
  | keywordStatement : IsRule r r.keywordStatement
  | simpleStatement : IsRule r r.simpleStatement
  | statement : IsRule r r.statement
  | typeArgs : IsRule r (typeArgs r.fuel)
  | callTypeArgs : IsRule r (callTypeArgs r.fuel)
  | typedName : IsRule r (typedName r.fuel)
  | declHead (typed : Bool) : IsRule r (declHead r.fuel typed)
  | tupleHead : IsRule r (tupleHead r.fuel)

/-- A rule comes out with a value or an error of the source, at the depth and below the ceiling
where it started, and not in front of the place. -/
def Settles {α : Type} (s : State) : EStateM.Result Stop State α → Prop
  | .ok _ s' | .error (.error _) s' =>
    s.cursor.Precedes s'.cursor ∧ s'.depth = s.depth ∧ s'.limit = s.limit
  | .error .bound _ => False

section

variable {α : Type} {k n : Nat} {p : Rule α} {q : Nesting → Parser α} {c : Cursor} {s : State}

theorem At.settles (h : At Free k p q s.cursor) : Settles s (p s) := by
  obtain ⟨c, depth, limit⟩ := s
  have hmoves := h.moves ⟨depth, limit⟩
  have hagrees := h.agrees ⟨depth, limit⟩
  dsimp only at hagrees
  rw [hagrees]
  cases hq : q ⟨depth, limit⟩ c with
  | ok a c' =>
    rw [hq] at hmoves
    exact ⟨hmoves.1, rfl, rfl⟩
  | error e c' =>
    rw [hq] at hmoves
    exact ⟨hmoves, rfl, rfl⟩

/-- A success moves the cursor on. -/
theorem At.lt_of_ok (h : At Free 1 p q s.cursor) {a : α} {s' : State} (hok : p s = .ok a s') :
    s'.cursor.rest.length < s.cursor.rest.length := by
  obtain ⟨c, depth, limit⟩ := s
  have hmoves := h.moves ⟨depth, limit⟩
  have hagrees := (h.agrees ⟨depth, limit⟩).symm.trans hok
  cases hq : q ⟨depth, limit⟩ c with
  | ok a c' =>
    rw [hq] at hagrees hmoves
    cases hagrees
    exact hmoves.2
  | error e c' =>
    rw [hq] at hagrees
    cases hagrees

theorem Parts.IsRule.exists_at (hp : (partsAt n).IsRule p) (hc : c.ahead < n) :
    ∃ k q, At Free k p q c := by
  have h := mirrors_free (Nat.le_refl n) (Nat.le_refl n)
  have hle := Nat.le_of_lt hc
  have hfuel : c.ahead < (partsAt n).fuel := hc
  -- at the end of input a rule that starts with a keyword fails
  have hkeyword {k : Nat} {q : Nesting → Parser α} (hpos : 0 < c.ahead → At Free k p q c)
      (hnil : ∀ past, c = ⟨past, []⟩ → ∃ k q, At Free k p q c) : ∃ k q, At Free k p q c := by
    obtain ⟨past, _ | ⟨t, rest⟩⟩ := c
    · exact hnil past rfl
    · exact ⟨k, q, hpos (Nat.succ_pos _)⟩
  cases hp with
  | arg => exact ⟨_, _, h.arg c hc⟩
  | args => exact ⟨_, _, h.args hle⟩
  | simple => exact ⟨_, _, h.simple hc⟩
  | block => exact ⟨_, _, h.block hle⟩
  | body => exact ⟨_, _, h.body hc⟩
  | arm => exact ⟨_, _, h.arm c hc⟩
  | switchParts => exact ⟨_, _, h.switchParts hle⟩
  | ifParts =>
    refine hkeyword (fun hpos => h.ifParts _ _ c hpos hle hle hle) ?_
    rintro past rfl
    obtain ⟨n, rfl⟩ := Nat.exists_eq_succ_of_ne_zero (Nat.ne_of_gt hc)
    cases past <;> exact ⟨0, fun d => (rulesAt (n + 1)).ifParts d (n + 1), fun _ => rfl,
      fun _ => .refl _, trivial⟩
  | primary => exact ⟨_, _, h.primary hle⟩
  | suffixes e => exact ⟨_, _, h.suffixes _ _ e c hfuel hc hc⟩
  | suffixed => exact ⟨_, _, h.suffixed hle⟩
  | unary => exact ⟨_, _, h.unary _ _ c hfuel hle hle⟩
  | binary levels => exact ⟨_, _, h.binary levels c hle⟩
  | ternary => exact ⟨_, _, h.ternary hle⟩
  | expression => exact ⟨_, _, h.expression hle⟩
  | declValue head => exact ⟨_, _, h.declValue head hc⟩
  | param => exact ⟨_, _, h.param c hc⟩
  | funcHead => exact ⟨_, _, h.funcHead hle⟩
  | funcBody head isMethod => exact ⟨_, _, h.funcBody head isMethod hc⟩
  | field => exact ⟨_, _, h.field c hc⟩
  | typeDecl => exact ⟨_, _, h.typeDecl hle⟩
  | forIn pos index item => exact ⟨_, _, h.forIn pos index item hle⟩
  | forLoop => exact ⟨_, _, h.forLoop hle⟩
  | importLib =>
    refine hkeyword (fun hpos => h.importLib hpos hle) ?_
    rintro past rfl
    obtain ⟨n, rfl⟩ := Nat.exists_eq_succ_of_ne_zero (Nat.ne_of_gt hc)
    cases past <;> exact ⟨0, fun _ => (rulesAt (n + 1)).importLib, fun _ => rfl,
      fun _ => .refl _, trivial⟩
  | keywordStatement =>
    refine hkeyword (fun hpos => h.keywordStatement hpos hc) ?_
    rintro past rfl
    cases past <;> exact ⟨0, (rulesAt n).keywordStatement, fun _ => rfl, fun _ => .refl _, trivial⟩
  | simpleStatement => exact ⟨_, _, h.simpleStatement hc⟩
  | statement => exact ⟨_, _, h.statement hc trivial⟩
  | typeArgs => exact ⟨_, _, at_typeArgs _ _ c hfuel hc⟩
  | callTypeArgs => exact ⟨_, _, at_callTypeArgs hfuel hc⟩
  | typedName => exact ⟨_, _, at_typedName hfuel hc⟩
  | declHead typed => exact ⟨_, _, at_declHead hfuel hc typed⟩
  | tupleHead => exact ⟨_, _, at_tupleHead hfuel hc⟩

/-- Rules that agree with one rule of the other form come out the same. -/
theorem At.eq {p' : Rule α} {k' : Nat} (h : At Free k p q s.cursor)
    (h' : At Free k' p' q s.cursor) : p' s = p s :=
  (h'.agrees ⟨s.depth, s.limit⟩).trans (h.agrees ⟨s.depth, s.limit⟩).symm

end

/-- **Parsing functions keep the state of the parser in order**, on arbitrary tokens, under every
limit and from every state, as soon as they are allowed more rounds than there are tokens left. Each
of them comes out with a value or an error of the source, leaves the depth at its value and never
moves the cursor back; an expression or a statement moves the cursor on. An attempt that fails puts
back the cursor and the depth, whatever was attempted. More rounds change nothing. The loop over the
statements of a program has an answer after one round for each token at most. -/
theorem parser_state (n : Nat) (s : State) (hn : s.cursor.rest.length < n) :
    (∀ {α : Type} (p : Rule α), (partsAt n).IsRule p → Settles s (p s)) ∧
    (∀ e s', (partsAt n).expression s = .ok e s' →
      s'.cursor.rest.length < s.cursor.rest.length) ∧
    (∀ a s', (partsAt n).statement s = .ok a s' →
      s'.cursor.rest.length < s.cursor.rest.length) ∧
    (∀ {α : Type} (p : Rule α) e s', p s = .error (.error e) s' → attempt p s = .ok none s) ∧
    (∀ n', s.cursor.rest.length < n' → (partsAt n').expression s = (partsAt n).expression s ∧
      (partsAt n').statement s = (partsAt n).statement s) ∧
    ∀ errors, ∃ read, ∀ rounds, s.cursor.rest.length ≤ rounds →
      program (stmtAt (n + 1)) rounds errors s = some read := by
  have hparts := mirrors_free (Nat.le_refl n) (Nat.le_refl n)
  have hle := Nat.le_of_lt hn
  refine ⟨fun p hp => ?_, fun e s' hok => (hparts.expression hle).lt_of_ok hok,
    fun a s' hok => (hparts.statement hn trivial).lt_of_ok hok, fun p e s' herror => ?_,
    fun n' hn' => ?_, fun errors => ?_⟩
  · obtain ⟨k, q, h⟩ := hp.exists_at hn
    exact h.settles
  · rw [attempt_eq, herror]
  · -- both bounds are past the tokens left, so both rules are one rule of the other form
    have hother := mirrors_free (m := s.cursor.rest.length + 1) hn' hn
    have hsame := mirrors_free (m := s.cursor.rest.length + 1) hn hn
    exact ⟨(hsame.expression (Nat.le_succ _)).eq (hother.expression (Nat.le_succ _)),
      (hsame.statement (Nat.lt_succ_self _) trivial).eq
        (hother.statement (Nat.lt_succ_self _) trivial)⟩
  · have hstmt := mirrors_free (Nat.le_refl (n + 1)) (Nat.le_refl _)
    exact ⟨_, fun rounds hrounds => program_eq (m := s.cursor.rest.length)
      (fun c hc => hstmt.stmt c (by omega)) ⟨s.depth, s.limit⟩ rounds _ errors s.cursor hrounds
      (Nat.le_refl _) (Nat.le_refl _)⟩

/-- An open parenthesis in front of a line end, an end of input in the middle and a block that ends
where none is open, below two levels of three. -/
theorem parser_state_unbalanced :
    let tokens : List Token := [⟨.lparen, "(", 1, 1, 0, 1⟩, ⟨.newline, "\n", 1, 2, 1, 2⟩,
      ⟨.eof, "", 2, 1, 2, 2⟩, ⟨.dedent, "", 2, 1, 2, 2⟩]
    let s : State := ⟨.start tokens, 2, 3⟩
    Settles s ((partsAt 5).statement s) ∧ ∃ read, program (stmtAt 6) 4 0 s = some read := by
  intro tokens s
  obtain ⟨hsettles, -, -, -, -, hprogram⟩ := parser_state 5 s (by decide)
  obtain ⟨read, hread⟩ := hprogram 0
  exact ⟨hsettles _ .statement, read, hread 4 (by decide)⟩

end Pine.Rule
