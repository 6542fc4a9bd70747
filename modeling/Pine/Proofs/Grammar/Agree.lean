import Pine.Proofs.Grammar.Coupling
import Pine.Proofs.Grammar.Sound

/-!
# The grammar in two runs

Every rule of the grammar agrees with itself in two coupled runs, as long as the bounds on
repetitions are enough for the left one. The heads that are tried and given up agree strictly: they
are read within a line or within brackets, where no seam can be.
-/

namespace Pine.Grammar

open Pine.Parser Coupling

variable {K : Coupling} {st : Prop} {a b : Nat} {c c' : Cursor}

/-! ### Types -/

/-- Both runs see the same two tokens ahead, if no line ends between them. -/
theorem peek_two (h : K.Here a b c c') {k : Token.Kind} (hk : k.isBreak = false) (k' : Token.Kind) :
    (decide (c'.peek.kind = k) && decide (c'.peekNext.kind = k')) = true ↔
      (decide (c.peek.kind = k) && decide (c.peekNext.kind = k')) = true := by
  by_cases heq : c.peek.kind = k
  · rw [h.2.kind, (K.peekNext h.1 (heq ▸ hk)).kind]
  · simp [h.2.kind, heq]

theorem dotted_agrees : (n : Nat) → (word : String) → ∀ {c c'}, K.Amid a b c c' →
    c.ahead ≤ n →
    K.Agrees st id (K.Amid a b) (c.ahead + 1) (dotted n word) c c'
  | 0, _, _, _, h, hf => absurd hf (not_rest_zero h.1)
  | n + 1, word, c, c', h, hf => by
    refine Both.peek (Both.peekNext (Both.ite (peek_two h.here rfl _) (fun hc => ?_) fun _ => ?_))
    · simp only [Bool.and_eq_true, decide_eq_true_eq] at hc
      obtain ⟨hdot, hname⟩ := hc
      have hne : c.peek.kind ≠ .eof := by simp [hdot]
      rw [← Cursor.peek_advance hne] at hname
      have h₁ := (h.here.advance hdot (by simp)).here rfl
      have h₂ := (h₁.advance hname (by simp)).amid rfl
      have l₁ := Cursor.ahead_advance_lt rfl hne
      have l₂ := Cursor.ahead_advance_lt hname (by simp)
      refine Both.advance (Both.advance ?_)
      rw [h₁.2.lexeme]
      exact (dotted_agrees n _ h₂ (by omega)).within (by omega)
    · exact Both.pure ⟨rfl, h, Nat.lt_succ_self _⟩

mutual

theorem typeArgs_agrees : (n : Nat) → ∀ {c c'}, K.Here a b c c' →
    c.ahead ≤ n → K.Agrees st id (K.Amid a b) c.ahead (typeArgs n) c c'
  | 0, _, _, h, hf => absurd hf (not_rest_zero h.1)
  | n + 1, c, c', h, hf => by
    refine (Both.expectOp h.clear "<").bind fun _ _ c₁ c₁' ⟨_, h₁, l₁⟩ => ?_
    refine (types_agrees n (h₁.here rfl) (by omega)).andThen fun xs c₂ c₂' h₂ l₂ => ?_
    refine (Both.expectOp h₂.here.clear ">").bind fun _ _ c₃ c₃' ⟨_, h₃, l₃⟩ => ?_
    exact Both.pure ⟨rfl, h₃.amid rfl, by omega⟩

theorem types_agrees : (n : Nat) → ∀ {c c'}, K.Here a b c c' →
    c.ahead ≤ n → K.Agrees st id (K.Amid a b) c.ahead (types n) c c'
  | 0, _, _, h, hf => absurd hf (not_rest_zero h.1)
  | n + 1, c, c', h, hf => by
    refine (Both.expect h.clear .identifier (by simp)).bind fun t u c₁ c₁' ⟨ht, h₁, l₁⟩ => ?_
    rw [ht.lexeme]
    refine (dotted_agrees n t.lexeme (h₁.amid rfl) (by omega)).andThen
      fun name c₂ c₂' h₂ l₂ => ?_
    refine Both.peek ?_
    extract_lets later
    have hlater (name : String) {c₃ c₃' : Cursor} (h₃ : K.Amid a b c₃ c₃')
        (l₃ : c₃.ahead < c.ahead) :
        K.Agrees st id (K.Amid a b) c.ahead (later name) c₃ c₃' := by
      refine Both.peek (Both.ite (by rw [h₃.here.2.kind]) (fun hk => ?_) fun _ => ?_)
      · have h₄ := (h₃.here.advance hk (by simp)).here rfl
        have l₄ := Cursor.ahead_advance_lt hk (by simp)
        refine Both.advance ((types_agrees n h₄ (by omega)).andThen
          fun xs d d' hd hl => ?_)
        exact Both.pure ⟨rfl, hd, by omega⟩
      · exact Both.pure ⟨rfl, h₃, l₃⟩
    refine Both.ite (by rw [h₂.here.2.isOp]) (fun _ => ?_) fun _ => ?_
    · refine (typeArgs_agrees n h₂.here (by omega)).andThen
        fun inner c₃ c₃' h₃ l₃ => ?_
      exact hlater _ h₃ (by omega)
    · exact hlater _ h₂ (by omega)

end

theorem callTypeArgs_agrees {n : Nat} (h : K.Here a b c c')
    (hf : c.ahead ≤ n) :
    K.Agrees st id (K.Amid a b) c.ahead (callTypeArgs n) c c' := by
  refine (typeArgs_agrees n h hf).andThen fun types c₁ c₁' h₁ l₁ => ?_
  refine Both.peek (Both.ite (by rw [h₁.here.2.kind]) (fun _ => ?_) fun _ => ?_)
  · exact Both.pure ⟨rfl, h₁, l₁⟩
  · exact Both.fail h₁.1 h₁.here.2 _

/-! ### Typed names and heads -/

theorem typeWord_agrees {n : Nat} (h : K.Here a b c c')
    (hf : c.ahead ≤ n) :
    K.Agrees st id (K.Amid a b) c.ahead (typeWord n) c c' := by
  refine (Both.expect h.clear .identifier (by simp)).bind fun t u c₁ c₁' ⟨ht, h₁, l₁⟩ => ?_
  rw [ht.lexeme]
  refine (dotted_agrees n t.lexeme (h₁.amid rfl) (by omega)).andThen
    fun word c₂ c₂' h₂ l₂ => ?_
  refine Both.peek ?_
  extract_lets later
  have hlater (word : String) {c₃ c₃' : Cursor} (h₃ : K.Amid a b c₃ c₃')
      (l₃ : c₃.ahead < c.ahead) :
      K.Agrees st id (K.Amid a b) c.ahead (later word) c₃ c₃' := by
    refine Both.peek (Both.peekNext (Both.ite (peek_two h₃.here rfl _) (fun hc => ?_) fun _ => ?_))
    · simp only [Bool.and_eq_true, decide_eq_true_eq] at hc
      obtain ⟨hopen, hclose⟩ := hc
      rw [← Cursor.peek_advance (by simp [hopen])] at hclose
      have h₄ := (h₃.here.advance hopen (by simp)).here rfl
      have h₅ := (h₄.advance hclose (by simp)).amid rfl
      have l₄ := Cursor.ahead_advance_lt hopen (by simp)
      have l₅ := Cursor.ahead_advance_lt hclose (by simp)
      exact Both.advance (Both.advance (Both.pure ⟨rfl, h₅, by omega⟩))
    · exact Both.pure ⟨rfl, h₃, l₃⟩
  refine Both.ite (by rw [h₂.here.2.isOp]) (fun _ => ?_) fun _ => ?_
  · refine (typeArgs_agrees n h₂.here (by omega)).andThen fun inner c₃ c₃' h₃ l₃ => ?_
    exact hlater _ h₃ (by omega)
  · exact hlater _ h₂ (by omega)

theorem typeWords_agrees {fuel : Nat} : (n : Nat) →
    ∀ {c c'}, K.Here a b c c' → c.ahead ≤ n → c.ahead ≤ fuel →
    K.Agrees st id (K.Amid a b) c.ahead (typeWords fuel n) c c'
  | 0, _, _, h, hf, _ => absurd hf (not_rest_zero h.1)
  | n + 1, c, c', h, hf, hf' => by
    refine (typeWord_agrees h hf').andThen fun word c₁ c₁' h₁ l₁ => ?_
    refine Both.peek (Both.ite (by rw [h₁.here.2.kind]) (fun _ => ?_) fun _ => ?_)
    · refine (typeWords_agrees n h₁.here (by omega) (by omega)).andThen
        fun others c₂ c₂' h₂ l₂ => ?_
      exact Both.pure ⟨rfl, h₂, by omega⟩
    · exact Both.pure ⟨rfl, h₁, l₁⟩

theorem typedName_agrees {n : Nat} (h : K.Here a b c c')
    (hf : c.ahead ≤ n) :
    K.Agrees st id (K.Amid a b) c.ahead (typedName n) c c' := by
  refine (typeWords_agrees n h hf hf).andThen fun t c₁ c₁' h₁ l₁ => ?_
  refine Both.ite Iff.rfl (fun _ => ?_) fun _ => ?_
  · exact Both.failHere h₁.1 fun _ _ _ => rfl
  · exact Both.pure ⟨rfl, h₁, l₁⟩

/-- The head of a declaration at another position. -/
def DeclHead.relocate (move : Pos → Pos) (head : DeclHead) : DeclHead :=
  { head with pos := move head.pos }

/-- The head of a function at another position. -/
def FuncHead.relocate (move : Pos → Pos) (head : FuncHead) : FuncHead :=
  { head with pos := move head.pos }

theorem declHead_agrees {n : Nat} (typed : Bool) (h : K.Here a b c c')
    (hf : c.ahead ≤ n) :
    K.Agrees st (DeclHead.relocate K.move) (K.Amid a b) c.ahead (declHead n typed) c c' := by
  refine Both.peek ((typedName_agrees h hf).andThen fun t c₁ c₁' h₁ l₁ => ?_)
  refine Both.ite Iff.rfl (fun _ => ?_) fun _ => ?_
  · exact Both.fail h₁.1 h.2 _
  · refine (Both.expectOp h₁.here.clear "=").bind fun _ _ c₂ c₂' ⟨_, h₂, l₂⟩ => ?_
    rw [h.2.pos]
    exact Both.pure ⟨rfl, h₂.amid rfl, by omega⟩

theorem names_agrees : (n : Nat) → ∀ {c c'}, K.Here a b c c' →
    c.ahead ≤ n → K.Agrees st id (K.Amid a b) c.ahead (names n) c c'
  | 0, _, _, h, hf => absurd hf (not_rest_zero h.1)
  | n + 1, c, c', h, hf => by
    refine (Both.expect h.clear .identifier (by simp)).bind fun t u c₁ c₁' ⟨ht, h₁, l₁⟩ => ?_
    have h₁ := h₁.amid rfl
    rw [ht.lexeme]
    refine Both.peek (Both.ite (by rw [h₁.here.2.kind]) (fun hk => ?_) fun _ => ?_)
    · have h₂ := (h₁.here.advance hk (by simp)).here rfl
      have l₂ := Cursor.ahead_advance_lt hk (by simp)
      refine Both.advance ((names_agrees n h₂ (by omega)).andThen
        fun others c₃ c₃' h₃ l₃ => ?_)
      exact Both.pure ⟨rfl, h₃, by omega⟩
    · exact Both.pure ⟨rfl, h₁, l₁⟩

theorem tupleHead_agrees {n : Nat} (h : K.Here a b c c')
    (hf : c.ahead ≤ n) :
    K.Agrees st (DeclHead.relocate K.move) (K.Amid a b) c.ahead (tupleHead n) c c' := by
  refine (Both.expect h.clear .lbracket (by simp)).bind fun t u c₁ c₁' ⟨ht, h₁, l₁⟩ => ?_
  refine (names_agrees n (h₁.here rfl) (by omega)).andThen fun names c₂ c₂' h₂ l₂ => ?_
  refine (Both.expect h₂.here.clear .rbracket (by simp)).bind fun _ _ c₃ c₃' ⟨_, h₃, l₃⟩ => ?_
  refine (Both.expectOp (h₃.here rfl).clear "=").bind fun _ _ c₄ c₄' ⟨_, h₄, l₄⟩ => ?_
  rw [ht.pos]
  exact Both.pure ⟨rfl, h₄.amid rfl, by omega⟩

/-! ### Import paths -/

theorem importPath_agrees : (n : Nat) → ∀ {c c'}, K.Amid a b c c' →
    c.ahead ≤ n →
    K.Agrees st id (K.Amid a b) (c.ahead + 1) (importPath n) c c'
  | 0, _, _, h, hf => absurd hf (not_rest_zero h.1)
  | n + 1, c, c', h, hf => by
    have ht := h.here.2
    refine Both.atLineEnd h.here fun e he => Both.peek ?_
    refine Both.ite (by rw [ht.isKeyword]) (fun _ => ?_) fun hend => ?_
    · exact Both.pure ⟨rfl, h, Nat.lt_succ_self _⟩
    · have hbreak : c.peek.kind.isBreak = false := by
        rw [Bool.or_eq_true, not_or] at hend
        rw [← he]
        exact Bool.eq_false_iff.2 hend.1
      have hne : c.peek.kind ≠ .eof := fun hk => by
        rw [hk] at hbreak
        cases hbreak
      have l₁ := Cursor.ahead_advance_lt rfl hne
      refine Both.advance (Both.ite (by rw [ht.kind, ht.isOp]) (fun hk => ?_) fun _ => ?_)
      · have h₁ : K.Amid a b c.advance c'.advance := by
          simp only [Bool.or_eq_true, decide_eq_true_eq] at hk
          rcases hk with (hk | hk) | hop
          · exact (h.here.advance hk (by simp)).amid rfl
          · exact (h.here.advance hk (by simp)).amid rfl
          · exact (h.here.advance (Token.isOp_iff.1 hop).1 (by simp)).amid rfl
        refine (importPath_agrees n h₁ (by omega)).andThen
          fun others c₂ c₂' h₂ l₂ => ?_
        rw [ht.lexeme]
        exact Both.pure ⟨rfl, h₂, by omega⟩
      · rw [ht.text]
        exact Both.fail (h.here.advance rfl hne).1 ht _

/-! ### Counting loops -/

theorem isNegativeNumber_relocate (move : Pos → Pos) (e : Expr) :
    isNegativeNumber (e.relocate move) = isNegativeNumber e := by
  cases e with
  | unary _ op operand => cases op <;> cases operand <;> rfl
  | _ => rfl

theorem literalGreater_relocate (move : Pos → Pos) (first last : Expr) :
    literalGreater (first.relocate move) (last.relocate move) = literalGreater first last := by
  simp only [literalGreater, Expr.literal?_relocate]

theorem countingLoop_relocate (move : Pos → Pos) (pos namePos : Pos) (counter : String)
    (first last step : Expr) (body : List Stmt) :
    countingLoop (move pos) (move namePos) counter (first.relocate move) (last.relocate move)
      (step.relocate move) (relocateStmts move body) =
    (countingLoop pos namePos counter first last step body).relocate move := by
  simp only [countingLoop, isNegativeNumber_relocate, literalGreater_relocate,
    Expr.literal?_relocate, Expr.isMissing_relocate, apply_ite (Stmt.relocate move), Stmt.relocate,
    Expr.relocate]

/-- The parts of a switch at other positions. -/
def relocateParts (move : Pos → Pos) (parts : Expr × List Arm) : Expr × List Arm :=
  (parts.1.relocate move, relocateArms move parts.2)

/-- The parts of a choice at other positions. -/
def relocateBranches (move : Pos → Pos) (parts : Expr × List Stmt × List Stmt) :
    Expr × List Stmt × List Stmt :=
  (parts.1.relocate move, relocateStmts move parts.2.1, relocateStmts move parts.2.2)

/-! ### Rules for the parts -/

/-- The rules for the parts agree in two runs, if the bounds are enough for the left one. -/
structure Rules.Agree (K : Coupling) (r : Rules) : Prop where
  sound : r.Sound
  expr : ∀ {st a b c c'} (d : Nesting), K.Firm st a → K.Rel a b c c' → c.ahead < r.fuel →
    K.Agrees st (Expr.relocate K.move) (K.Done a b) c.ahead (r.expr d) c c'
  stmt : ∀ {st a b c c'} (d : Nesting), K.Firm st a → K.Here a b c c' →
    c.ahead + 1 < r.fuel →
    K.Agrees st (Stmt.relocate K.move) (K.Ended a b) c.ahead (r.stmt d) c c'

namespace Rules

variable {r : Rules} (hr : Agree K r) (d : Nesting)

include hr

/-! ### Lists of expressions -/

theorem arg_agrees (h : K.Rel (a + 1) b c c') (hf : c.ahead < r.fuel) :
    K.Gives st (Arg.relocate K.move) (K.Rel (a + 1) b) c.ahead (r.arg d) (r.arg d) c c' := by
  have hh : K.Here (a + 1) b c c' := ⟨h, twin_of_level h⟩
  have ht := hh.2
  have hi : ((decide (c'.peek.kind = .identifier) || decide (c'.peek.kind = .keyword)) &&
        c'.peekNext.isOp "=") = true ↔
      ((decide (c.peek.kind = .identifier) || decide (c.peek.kind = .keyword)) &&
        c.peekNext.isOp "=") = true := by
    by_cases hk : c.peek.kind = .identifier ∨ c.peek.kind = .keyword
    · rw [ht.kind, (K.peekNext h (by rcases hk with hk | hk <;> rw [hk] <;> rfl)).isOp]
    · simp [ht.kind, hk]
  refine Both.peek (Both.peekNext (Both.ite hi (fun hc => ?_) fun _ => ?_))
  · simp only [Bool.and_eq_true, Bool.or_eq_true, decide_eq_true_eq] at hc
    obtain ⟨hname, hop⟩ := hc
    have h₁ : K.Here (a + 1) b c.advance c'.advance := by
      rcases hname with hk | hk
      all_goals exact (hh.advance hk (by simp)).here rfl
    have hne : c.peek.kind ≠ .eof := by rcases hname with hk | hk <;> simp [hk]
    rw [← Cursor.peek_advance hne] at hop
    have hop := (Token.isOp_iff.1 hop).1
    have h₂ := h₁.advance hop (by simp)
    have l₁ := Cursor.ahead_advance_lt rfl hne
    have l₂ := Cursor.ahead_advance_lt hop (by simp)
    refine Both.advance (Both.advance ((hr.expr d (firm_level a) h₂.1 (by omega)).andThen
      fun e c₃ c₃' h₃ l₃ => ?_))
    rw [ht.lexeme]
    exact Both.pure ⟨rfl, h₃.1, by omega⟩
  · refine (hr.expr d (firm_level a) h hf).andThen fun e c₁ c₁' h₁ l₁ => ?_
    exact Both.pure ⟨rfl, h₁.1, l₁⟩

omit hr in
/-- Lists between brackets agree if their items do. -/
theorem items_agrees {α : Type} {close : Token.Kind} {item : Parser α} {v : α → α}
    {bound : Nat} (hitem : ∀ {c c'}, K.Rel (a + 1) b c c' → c.ahead < bound →
      K.Gives st v (K.Rel (a + 1) b) c.ahead item item c c') :
    (n : Nat) → ∀ {c c'}, K.Rel (a + 1) b c c' → c.ahead ≤ n →
    c.ahead < bound →
    K.Gives st (List.map v) (K.Rel (a + 1) b) (c.ahead + 1)
      (items close item n) (items close item n) c c'
  | 0, _, _, h, hf, _ => absurd hf (not_rest_zero h)
  | n + 1, c, c', h, hf, hb => by
    refine Both.peek (Both.ite (by rw [(twin_of_level h).kind]) (fun _ => ?_) fun _ => ?_)
    · exact Both.pure ⟨rfl, h, Nat.lt_succ_self _⟩
    · refine (hitem h hb).andThen fun x c₁ c₁' h₁ l₁ => ?_
      have ht := twin_of_level h₁
      refine Both.peek (Both.ite (by rw [ht.kind]) (fun hk => ?_) fun _ => ?_)
      · have h₂ := (Here.advance ⟨h₁, ht⟩ hk (by simp)).1
        have l₂ := Cursor.ahead_advance_lt hk (by simp)
        refine Both.advance ((items_agrees hitem n h₂ (by omega) (by omega)).andThen
          fun xs c₃ c₃' h₃ l₃ => ?_)
        exact Both.pure ⟨rfl, h₃, by omega⟩
      · exact Both.pure ⟨rfl, h₁, by omega⟩

theorem args_agrees (h : K.Clear st a b c c') (hf : c.ahead ≤ r.fuel) :
    K.Agrees st (relocateArgs K.move) (K.At .rparen a b) c.ahead (r.args d) c c' := by
  refine (Both.expect h .lparen (by simp)).bind fun _ _ c₁ c₁' ⟨_, h₁, l₁⟩ => ?_
  refine (items_agrees (fun h hf => arg_agrees hr d h hf) r.fuel h₁.1 (by omega)
    (by omega)).andThen fun args c₂ c₂' h₂ l₂ => ?_
  have hh : K.Here (a + 1) b c₂ c₂' := ⟨h₂, twin_of_level h₂⟩
  refine (Both.expect hh.clear .rparen (by simp)).bind fun _ _ c₃ c₃' ⟨_, h₃, l₃⟩ => ?_
  exact Both.pure ⟨(relocateArgs_eq_map K.move args).symm, h₃, by omega⟩

/-! ### Statements on a line and blocks -/

theorem simple_agrees (hst : K.Firm st a) (h : K.Here a b c c') (hf : c.ahead < r.fuel) :
    K.Agrees st (Stmt.relocate K.move) (K.Done a b) c.ahead (r.simple d) c c' := by
  refine Both.peek ((hr.expr d hst h.1 hf).andThen fun e c₁ c₁' h₁ l₁ => ?_)
  -- an expression that is no target fails with its text, which is the same on both sides
  have hfail {Q : Stmt → Stmt → Cursor → Cursor → Prop} {c₂ c₂' : Cursor}
      (h₂ : K.Done a b c₂ c₂') : K.Both st (fail c.peek (.notAssignable e.text))
        (fail c'.peek (.notAssignable (e.relocate K.move).text)) c₂ c₂' Q := by
    rw [Expr.text_relocate]
    exact Both.fail h₂.1 h.2 _
  refine Both.peek (Both.ite (by rw [peek_isOp h₁.1]) (fun hop => ?_) fun _ => ?_)
  · have hk := (Token.isOp_iff.1 hop).1
    have h₂ := (here_of_ne_eof h₁.1 (by simp [hk])).advance hk (by simp)
    have l₂ := Cursor.ahead_advance_lt hk (by simp)
    refine Both.advance ((hr.expr d hst h₂.1 (by omega)).andThen fun value c₃ c₃' h₃ l₃ => ?_)
    rw [h.2.pos]
    cases e with
    | name _ n | member _ object property => exact Both.pure ⟨rfl, h₃, by omega⟩
    | _ => exact hfail h₃
  · refine Both.ite (by rw [funext (peek_isOp h₁.1)]) (fun hop => ?_) fun _ => ?_
    · obtain ⟨op, -, hop⟩ := List.any_eq_true.1 hop
      have hk := (Token.isOp_iff.1 hop).1
      have hh := here_of_ne_eof h₁.1 (by simp [hk])
      have h₂ := hh.advance hk (by simp)
      have l₂ := Cursor.ahead_advance_lt hk (by simp)
      refine Both.advance ((hr.expr d hst h₂.1 (by omega)).andThen fun value c₃ c₃' h₃ l₃ => ?_)
      rw [h.2.pos, hh.2.lexeme]
      cases e with
      | name _ n | member _ object property => exact Both.pure ⟨rfl, h₃, by omega⟩
      | _ => exact hfail h₃
    · rw [h.2.pos]
      exact Both.pure ⟨rfl, h₁, l₁⟩

omit hr in
/-- The lines of a block agree if their items do. A run that ends inside a block is not at a seam. -/
theorem lines_agrees {α : Type} {item : Parser α} {v : α → α} {bound : Nat}
    (hitem : ∀ {c c'}, K.Here a (b + 1) c c' → c.ahead < bound →
      K.Gives st v (K.Ended a (b + 1)) c.ahead item item c c') :
    (n : Nat) → ∀ {c c'}, K.Ended a (b + 1) c c' → c.ahead ≤ n →
    c.ahead < bound →
    K.Agrees st (List.map v) (K.Done a b) (c.ahead + 1) (lines item n) c c'
  | 0, _, _, h, hf, _ => absurd hf (not_rest_zero h.1)
  | n + 1, c, c', h, hf, hb => by
    have hh : K.Here a (b + 1) c c' := ⟨h.1, twin_of_block h.1⟩
    have hmore : K.Gives st (List.map v) (K.Done a b) (c.ahead + 1)
        (item >>= fun x => lines item n >>= fun xs => pure (x :: xs))
        (item >>= fun x => lines item n >>= fun xs => pure (x :: xs)) c c' := by
      refine (hitem hh hb).andThen fun x c₁ c₁' h₁ l₁ => ?_
      refine (lines_agrees hitem n h₁ (by omega) (by omega)).andThen
        fun xs c₂ c₂' h₂ l₂ => ?_
      exact Both.pure ⟨rfl, h₂, by omega⟩
    refine Both.peek ?_
    rw [hh.2.kind]
    cases hk : c.peek.kind with
    | newline =>
      have h₁ := hh.advance hk (by simp)
      have l₁ := Cursor.ahead_advance_lt hk (by simp)
      exact Both.advance ((lines_agrees hitem n h₁.ended
        (by omega) (by omega)).within (by omega))
    | dedent =>
      have l₁ := Cursor.ahead_advance_lt hk (by simp)
      exact Both.advance (Both.pure ⟨rfl, (hh.advance hk (by simp)).done_dedent, by omega⟩)
    | eof =>
      obtain ⟨hj, h₁⟩ := K.eof_in_block h.1 hk
      exact Both.pure ⟨rfl, ⟨h₁, h.2, fun hj' => absurd hj' hj⟩, Nat.lt_succ_self _⟩
    | _ => exact hmore

theorem block_agrees (hst : K.Firm st a) (h : K.Rel a b c c') (hf : c.ahead ≤ r.fuel) :
    K.Agrees st (relocateStmts K.move) (K.Done a b) c.ahead (r.block d) c c' := by
  refine (Both.enter h d).bind ?_
  rintro _ _ c c' ⟨rfl, rfl, rfl⟩
  refine (Both.expect (hst.clear h) .newline (by simp)).bind fun _ _ c₁ c₁' ⟨_, h₁, l₁⟩ => ?_
  refine (Both.expect (hst.clear h₁.1) .indent (by simp)).bind fun _ _ c₂ c₂' ⟨_, h₂, l₂⟩ => ?_
  refine (lines_agrees (fun h hf => hr.stmt _ hst h (Nat.add_lt_of_lt_sub hf)) r.fuel h₂.ended
    (by omega) (by omega)).mono ?_
  rintro ss _ c₃ c₃' ⟨rfl, h₃, l₃⟩
  exact ⟨(relocateStmts_eq_map K.move ss).symm, h₃, by omega⟩

theorem body_agrees (hst : K.Firm st a) (h : K.Here a b c c') (hf : c.ahead < r.fuel) :
    K.Agrees st (relocateStmts K.move) (K.Done a b) c.ahead (r.body d) c c' := by
  refine Both.peek (Both.ite (by rw [h.2.kind]) (fun _ => ?_) fun _ => ?_)
  · exact block_agrees hr d hst h.1 (by omega)
  · refine (simple_agrees hr d hst h hf).andThen fun s c₁ c₁' h₁ l₁ => ?_
    exact Both.pure ⟨rfl, h₁, l₁⟩

/-! ### Switch and if -/

theorem arm_agrees (hst : K.Firm st a) (h : K.Here a b c c') (hf : c.ahead < r.fuel) :
    K.Agrees st (Arm.relocate K.move) (K.Ended a b) c.ahead (r.arm d) c c' := by
  refine Both.peek ?_
  extract_lets later
  have hlater (test : Expr) {c₁ c₁' : Cursor} (h₁ : K.Rel a b c₁ c₁')
      (l₁ : c₁.ahead ≤ c.ahead) :
      K.Gives st (Arm.relocate K.move) (K.Ended a b) c.ahead
        (later test) (later (test.relocate K.move)) c₁ c₁' := by
    refine (Both.expectOp (hst.clear h₁) "=>").bind fun _ _ c₂ c₂' ⟨_, h₂, l₂⟩ => ?_
    refine (body_agrees hr d hst (h₂.here rfl) (by omega)).andThen fun body c₃ c₃' h₃ l₃ => ?_
    exact Gives.ended rfl h₃ (by omega)
  refine Both.ite (by rw [h.2.isOp]) (fun _ => ?_) fun _ => ?_
  · exact hlater .missing h.1 (Nat.le_refl _)
  · refine (hr.expr d hst h.1 hf).andThen fun test c₁ c₁' h₁ l₁ => ?_
    exact hlater test h₁.1 (by omega)

theorem switchParts_agrees (hst : K.Firm st a) (h : K.Here a b c c')
    (hf : c.ahead ≤ r.fuel) :
    K.Agrees st (relocateParts K.move) (K.Done a b) c.ahead (r.switchParts d) c c' := by
  refine (Both.expectKeyword h.clear "switch").bind fun _ _ c₁ c₁' ⟨_, h₁, l₁⟩ => Both.peek ?_
  extract_lets later
  have hlater (subject : Expr) {c₂ c₂' : Cursor} (h₂ : K.Rel a b c₂ c₂')
      (l₂ : c₂.ahead < c.ahead) :
      K.Gives st (relocateParts K.move) (K.Done a b) c.ahead
        (later subject) (later (subject.relocate K.move)) c₂ c₂' := by
    refine (Both.enter h₂ d).bind ?_
    rintro _ _ c₂ c₂' ⟨rfl, rfl, rfl⟩
    refine (Both.expect (hst.clear h₂) .newline (by simp)).bind fun _ _ c₃ c₃' ⟨_, h₃, l₃⟩ => ?_
    refine (Both.expect (hst.clear h₃.1) .indent (by simp)).bind fun _ _ c₄ c₄' ⟨_, h₄, l₄⟩ => ?_
    refine (lines_agrees (fun h hf => arm_agrees hr _ hst h hf) r.fuel h₄.ended
      (by omega) (by omega)).andThen fun arms c₅ c₅' h₅ l₅ => ?_
    exact Both.pure ⟨by rw [relocateParts, relocateArms_eq_map], h₅, by omega⟩
  refine Both.ite (by rw [(h₁.here rfl).2.kind]) (fun _ => ?_) fun _ => ?_
  · exact hlater .missing h₁.1 l₁
  · refine (hr.expr d hst h₁.1 (by omega)).andThen fun subject c₂ c₂' h₂ l₂ => ?_
    exact hlater subject h₂.1 (by omega)

theorem ifParts_agrees (hst : K.Firm st a) : (n : Nat) → ∀ {c c'},
    K.Here a b c c' → c.ahead ≤ n → c.ahead ≤ r.fuel →
    K.Agrees st (relocateBranches K.move) (K.Done a b) c.ahead (r.ifParts d n) c c'
  | 0, _, _, h, hf, _ => absurd hf (not_rest_zero h.1)
  | n + 1, c, c', h, hf, hf' => by
    refine (Both.expectKeyword h.clear "if").bind fun _ _ c₁ c₁' ⟨_, h₁, l₁⟩ => ?_
    refine (hr.expr d hst h₁.1 (by omega)).andThen fun cond c₂ c₂' h₂ l₂ => ?_
    refine (block_agrees hr d hst h₂.1 (by omega)).andThen fun yes c₃ c₃' h₃ l₃ => ?_
    refine Both.peek (Both.ite (by rw [peek_isElse h₃.1]) (fun helse => ?_) fun _ => ?_)
    · have hk := (Token.isKeyword_iff.1 helse).1
      have h₄ := ((here_of_ne_eof h₃.1 (by simp [hk])).advance hk (by simp)).here rfl
      have l₄ := Cursor.ahead_advance_lt hk (by simp)
      refine Both.advance (Both.peek ?_)
      refine Both.ite (by rw [h₄.2.isKeyword]) (fun _ => ?_) fun _ => ?_
      · refine (ifParts_agrees hst n h₄ (by omega) (by omega)).andThen
          fun ⟨cond', yes', no'⟩ c₅ c₅' h₅ l₅ => ?_
        rw [h₄.2.pos]
        exact Both.pure ⟨rfl, h₅, by omega⟩
      · refine (block_agrees hr d hst h₄.1 (by omega)).andThen fun no c₅ c₅' h₅ l₅ => ?_
        exact Both.pure ⟨rfl, h₅, by omega⟩
    · exact Both.pure ⟨rfl, h₃, by omega⟩

/-! ### Expressions -/

theorem primary_agrees (hst : K.Firm st a) (h : K.Rel a b c c') (hf : c.ahead ≤ r.fuel) :
    K.Agrees st (Expr.relocate K.move) (K.Done a b) c.ahead (r.primary d) c c' := by
  refine Both.peek ?_
  rcases K.peek h with ht | ⟨hj, hs⟩
  · have hh : K.Here a b c c' := ⟨h, ht⟩
    rw [ht.kind, ht.text, ht.pos, ht.lexeme]
    cases hk : c.peek.kind with
    | number | string | boolean | color | identifier =>
      have h₁ := (hh.advance hk (by simp)).amid rfl
      exact Both.advance (Both.pure ⟨rfl, h₁.done, Cursor.ahead_advance_lt hk (by simp)⟩)
    | na =>
      have h₁ := (hh.advance hk (by simp)).amid rfl
      have l₁ := Cursor.ahead_advance_lt hk (by simp)
      refine Both.advance (Both.peek ?_)
      refine Both.ite (by rw [h₁.here.2.kind]) (fun _ => ?_) fun _ => ?_
      all_goals exact Both.pure ⟨rfl, h₁.done, l₁⟩
    | lparen =>
      have l₁ := Cursor.ahead_advance_lt hk (by simp)
      refine Both.advance ((hr.expr d (firm_level a) (hh.advance hk (by simp)).1 (by omega)).andThen
        fun e c₂ c₂' h₂ l₂ => ?_)
      have hh₂ : K.Here (a + 1) b c₂ c₂' := ⟨h₂.1, twin_of_level h₂.1⟩
      refine (Both.expect hh₂.clear .rparen (by simp)).bind fun _ _ c₃ c₃' ⟨_, h₃, l₃⟩ => ?_
      exact Both.pure ⟨rfl, (h₃.amid rfl).done, by omega⟩
    | lbracket =>
      have l₁ := Cursor.ahead_advance_lt hk (by simp)
      refine Both.advance ((items_agrees (b := b) (fun h hf => (hr.expr d (firm_level a) h hf).mono
        fun _ _ _ _ hx => ⟨hx.1, hx.2.1.1, hx.2.2⟩) r.fuel
        (hh.advance hk (by simp)).1 (by omega) (by omega)).andThen fun es c₂ c₂' h₂ l₂ => ?_)
      have hh₂ : K.Here (a + 1) b c₂ c₂' := ⟨h₂, twin_of_level h₂⟩
      refine (Both.expect hh₂.clear .rbracket (by simp)).bind fun _ _ c₃ c₃' ⟨_, h₃, l₃⟩ => ?_
      exact Both.pure ⟨by rw [Expr.relocate, relocateExprs_eq_map], (h₃.amid rfl).done, by omega⟩
    | keyword =>
      refine Both.ite Iff.rfl (fun _ => ?_) fun _ => Both.ite Iff.rfl (fun _ => ?_) fun _ => ?_
      · refine (switchParts_agrees hr d hst hh hf).andThen fun parts c₁ c₁' h₁ l₁ => ?_
        exact Both.pure ⟨rfl, h₁, l₁⟩
      · refine (ifParts_agrees hr d hst r.fuel hh hf hf).andThen
          fun parts c₁ c₁' h₁ l₁ => ?_
        exact Both.pure ⟨rfl, h₁, l₁⟩
      · exact Both.fail h ht _
    | _ => exact Both.fail h ht _
  · refine Both.of_left_error hj ((hst.clear h).not_strict hs) ?_
    rw [hs.left]
    exact ⟨_, _, rfl⟩

theorem suffixes_agrees (hst : K.Firm st a) : (n : Nat) → (e : Expr) →
    e ≠ .missing → ∀ {c c'}, K.Done a b c c' → c.ahead ≤ n → c.ahead ≤ r.fuel →
    K.Gives st (Expr.relocate K.move) (K.Done a b) (c.ahead + 1)
      (r.suffixes d n e) (r.suffixes d n (e.relocate K.move)) c c'
  | 0, _, _, _, _, h, hf, _ => absurd hf (not_rest_zero h.1)
  | n + 1, e, he, c, c', h, hf, hf' => by
    have hpos := Expr.pos_relocate K.move he
    -- what follows a suffix is read in the same way for every suffix
    have hnext (e₁ : Expr) {c₁ c₁' : Cursor} (he₁ : e₁ ≠ .missing) (h₁ : K.Done a b c₁ c₁')
        (l₁ : c₁.ahead < c.ahead) :
        K.Gives st (Expr.relocate K.move) (K.Done a b) (c.ahead + 1)
          (r.suffixes d n e₁) (r.suffixes d n (e₁.relocate K.move)) c₁ c₁' := by
      exact (suffixes_agrees hst n e₁ he₁ h₁ (by omega) (by omega)).within (by omega)
    refine Both.peek ?_
    rcases K.peek h.1 with ht | ⟨-, hs⟩
    · have hh : K.Here a b c c' := ⟨h.1, ht⟩
      -- `k` and `k'` go on with the type arguments, if there are any
      have hother {k k' : Option (List String) → Parser Expr} (hnone : k none = pure e)
          (hsome : ∀ types, k (some types) =
            r.args d >>= fun args => r.suffixes d n (.call e.pos 0 e args types))
          (hnone' : k' none = pure (e.relocate K.move))
          (hsome' : ∀ types, k' (some types) = r.args d >>= fun args =>
            r.suffixes d n (.call (e.relocate K.move).pos 0 (e.relocate K.move) args types)) :
          K.Gives st (Expr.relocate K.move) (K.Done a b) (c.ahead + 1)
            (if c.peek.isOp "<" && isCallee e then attempt (callTypeArgs r.fuel) >>= k
            else pure e)
            (if c'.peek.isOp "<" && isCallee (e.relocate K.move) then
              attempt (callTypeArgs r.fuel) >>= k'
            else pure (e.relocate K.move)) c c' := by
        refine Both.ite (by rw [ht.isOp, isCallee_relocate]) (fun _ => ?_) fun _ => ?_
        · refine (callTypeArgs_agrees hh hf').attempt.bind ?_
          rintro x y c₁ c₁' (⟨rfl, rfl, rfl, rfl⟩ | ⟨_, types, rfl, rfl, rfl, h₁, l₁⟩)
          · rw [hnone, hnone']
            exact Both.pure ⟨rfl, h, Nat.lt_succ_self _⟩
          · rw [hsome, hsome']
            refine (args_agrees hr d h₁.here.clear (by omega)).andThen fun args c₂ c₂' h₂ l₂ => ?_
            rw [hpos]
            exact hnext (.call e.pos 0 e args types) (by simp) (h₂.amid rfl).done (by omega)
        · exact Both.pure ⟨rfl, h, Nat.lt_succ_self _⟩
      rw [ht.kind]
      cases hk : c.peek.kind with
      | lparen =>
        refine (args_agrees hr d hh.clear hf').andThen fun args c₁ c₁' h₁ l₁ => ?_
        rw [hpos]
        exact hnext (.call e.pos 0 e args []) (by simp) (h₁.amid rfl).done l₁
      | dot =>
        have h₁ := (hh.advance hk (by simp)).here rfl
        have l₁ := Cursor.ahead_advance_lt hk (by simp)
        refine Both.advance (Both.peek ?_)
        refine Both.ite (by rw [h₁.2.kind]) (fun hname => ?_) fun _ => ?_
        · simp only [Bool.or_eq_true, decide_eq_true_eq] at hname
          have h₂ : K.Amid a b c.advance.advance c'.advance.advance := by
            rcases hname with hk | hk
            all_goals exact (h₁.advance hk (by simp)).amid rfl
          have l₂ := Cursor.ahead_advance_lt (c := c.advance) rfl
            (by rcases hname with hk | hk <;> simp [hk])
          refine Both.advance ?_
          rw [hpos, h₁.2.lexeme]
          exact hnext (.member e.pos e c.advance.peek.lexeme) (by simp) h₂.done (by omega)
        · rw [h₁.2.text]
          exact Both.fail h₁.1 h₁.2 _
      | lbracket =>
        have l₁ := Cursor.ahead_advance_lt hk (by simp)
        refine Both.advance ((hr.expr d (firm_level a) (hh.advance hk (by simp)).1
          (by omega)).andThen fun offset c₂ c₂' h₂ l₂ => ?_)
        have hh₂ : K.Here (a + 1) b c₂ c₂' := ⟨h₂.1, twin_of_level h₂.1⟩
        refine (Both.expect hh₂.clear .rbracket (by simp)).bind fun _ _ c₃ c₃' ⟨_, h₃, l₃⟩ => ?_
        rw [hpos]
        exact hnext (.index e.pos e offset) (by simp) (h₃.amid rfl).done (by omega)
      | _ => exact hother rfl (fun _ => rfl) rfl fun _ => rfl
    · -- at a seam neither run finds a suffix
      have hl : c.peek.isOp "<" = false := by simp [Token.isOp, hs.left]
      have hr := hl ▸ peek_isOp h.1 "<"
      rw [hs.left, hl, hr]
      rcases hs.right with hk | ⟨hk, -⟩
      all_goals
        rw [hk]
        exact Both.pure ⟨rfl, h, Nat.lt_succ_self _⟩

theorem suffixed_agrees (hst : K.Firm st a) (h : K.Rel a b c c') (hf : c.ahead ≤ r.fuel) :
    K.Agrees st (Expr.relocate K.move) (K.Done a b) c.ahead (r.suffixed d) c c' := by
  refine ((primary_agrees hr d hst h hf).and_left (primary_grows hr.sound d c).ensures).bind ?_
  rintro e _ c₁ c₁' ⟨⟨rfl, h₁, l₁⟩, hc, -⟩
  have he : e ≠ .missing := by
    rintro rfl
    exact hc
  exact (suffixes_agrees hr d hst r.fuel e he h₁ (by omega) (by omega)).within
    (by omega)

theorem unary_agrees (hst : K.Firm st a) : (n : Nat) → (d : Nesting) → ∀ {c c'},
    K.Rel a b c c' → c.ahead ≤ n → c.ahead ≤ r.fuel →
    K.Agrees st (Expr.relocate K.move) (K.Done a b) c.ahead (r.unary n d) c c'
  | 0, _, _, _, h, hf, _ => absurd hf (not_rest_zero h)
  | n + 1, d, c, c', h, hf, hf' => by
    refine Both.peek (Both.ite (by rw [funext (peek_isOp h)]) (fun hop => ?_) fun _ => ?_)
    · obtain ⟨op, -, hop⟩ := List.any_eq_true.1 hop
      have hk := (Token.isOp_iff.1 hop).1
      have hh := here_of_ne_eof h (by simp [hk])
      have l₁ := Cursor.ahead_advance_lt hk (by simp)
      refine (Both.enter h d).bind ?_
      rintro _ _ c c' ⟨rfl, rfl, rfl⟩
      refine Both.advance ((unary_agrees hst n _ (hh.advance hk (by simp)).1
        (by omega) (by omega)).andThen fun operand c₂ c₂' h₂ l₂ => ?_)
      rw [hh.2.pos, hh.2.lexeme]
      exact Both.pure ⟨rfl, h₂, by omega⟩
    · exact suffixed_agrees hr d hst h hf'

omit hr in
/-- A chain of operators agrees if its operands do. -/
theorem chain_agrees {next : Parser Expr} {bound : Nat}
    (hnext : ∀ {c c'}, K.Rel a b c c' → c.ahead ≤ bound →
      K.Agrees st (Expr.relocate K.move) (K.Done a b) c.ahead next c c')
    (ops : List BinaryOp) : (n : Nat) → (left : Expr) → ∀ {c c'}, K.Done a b c c' →
    c.ahead ≤ n → c.ahead ≤ bound →
    K.Gives st (Expr.relocate K.move) (K.Done a b) (c.ahead + 1)
      (chain next ops n left) (chain next ops n (left.relocate K.move)) c c'
  | 0, _, _, _, h, hf, _ => absurd hf (not_rest_zero h.1)
  | n + 1, left, c, c', h, hf, hb => by
    refine Both.peek (Both.ite ?_ (fun hop => ?_) fun _ => ?_)
    · simp only [peek_isOp h.1]
    · obtain ⟨op, -, hop⟩ := List.any_eq_true.1 hop
      have hk := (Token.isOp_iff.1 hop).1
      have hh := here_of_ne_eof h.1 (by simp [hk])
      have l₁ := Cursor.ahead_advance_lt hk (by simp)
      refine Both.advance ((hnext (hh.advance hk (by simp)).1 (by omega)).andThen
        fun right c₂ c₂' h₂ l₂ => ?_)
      rw [hh.2.pos, hh.2.lexeme]
      exact (chain_agrees hnext ops n (.binary _ _ left right) h₂ (by omega)
        (by omega)).within (by omega)
    · exact Both.pure ⟨rfl, h, Nat.lt_succ_self _⟩

theorem binary_agrees (hst : K.Firm st a) : (levels : List (List BinaryOp)) → ∀ {c c'},
    K.Rel a b c c' → c.ahead ≤ r.fuel →
    K.Agrees st (Expr.relocate K.move) (K.Done a b) c.ahead (r.binary d levels) c c'
  | [], c, c', h, hf => unary_agrees hr hst r.fuel d h hf hf
  | ops :: tighter, c, c', h, hf => by
    refine (binary_agrees hst tighter h hf).andThen fun left c₁ c₁' h₁ l₁ => ?_
    exact (chain_agrees (binary_agrees hst tighter) ops r.fuel left h₁ (by omega)
      (by omega)).within (by omega)

theorem expression_agrees (hst : K.Firm st a) (h : K.Rel a b c c') (hf : c.ahead ≤ r.fuel) :
    K.Agrees st (Expr.relocate K.move) (K.Done a b) c.ahead (r.expression d) c c' := by
  refine (Both.enter h d).bind ?_
  rintro _ _ c c' ⟨rfl, rfl, rfl⟩
  refine (binary_agrees hr _ hst levels h hf).andThen fun cond c₁ c₁' h₁ l₁ => ?_
  refine Both.peek (Both.ite (by rw [peek_isOp h₁.1]) (fun hop => ?_) fun _ => ?_)
  · have hk := (Token.isOp_iff.1 hop).1
    have hh := here_of_ne_eof h₁.1 (by simp [hk])
    have l₂ := Cursor.ahead_advance_lt hk (by simp)
    refine Both.advance ((hr.expr _ hst (hh.advance hk (by simp)).1 (by omega)).andThen
      fun yes c₃ c₃' h₃ l₃ => ?_)
    refine (Both.expect (hst.clear h₃.1) .colon (by simp)).bind fun _ _ c₄ c₄' ⟨_, h₄, l₄⟩ => ?_
    refine (hr.expr _ hst h₄.1 (by omega)).andThen fun no c₅ c₅' h₅ l₅ => ?_
    rw [hh.2.pos]
    exact Both.pure ⟨rfl, h₅, by omega⟩
  · exact Both.pure ⟨rfl, h₁, l₁⟩

/-! ### Declarations -/

theorem declValue_agrees (hst : K.Firm st a) (h : K.Rel a b c c') (hf : c.ahead < r.fuel)
    (head : DeclHead) :
    K.Gives st (Stmt.relocate K.move) (K.Ended a b) c.ahead
      (r.declValue d head) (r.declValue d (head.relocate K.move)) c c' := by
  refine (hr.expr d hst h hf).andThen fun value c₁ c₁' h₁ l₁ => ?_
  exact Gives.ended rfl h₁ (by omega)

theorem param_agrees (h : K.Rel (a + 1) b c c') (hf : c.ahead < r.fuel) :
    K.Gives st id (K.Rel (a + 1) b) c.ahead (r.param d) (r.param d) c c' := by
  refine (typedName_agrees ⟨h, twin_of_level h⟩ (by omega)).andThen fun t c₁ c₁' h₁ l₁ => ?_
  refine Both.peek (Both.ite (by rw [h₁.here.2.isOp]) (fun hop => ?_) fun _ => ?_)
  · have hk := (Token.isOp_iff.1 hop).1
    have l₂ := Cursor.ahead_advance_lt hk (by simp)
    refine Both.advance ((hr.expr d (firm_level a) (h₁.here.advance hk (by simp)).1
      (by omega)).bind ?_)
    rintro _ _ c₃ c₃' ⟨-, h₃, l₃⟩
    exact Both.pure ⟨rfl, h₃.1, by omega⟩
  · exact Both.pure ⟨rfl, h₁.1, l₁⟩

theorem funcHead_agrees (h : K.Here a b c c') (hf : c.ahead < r.fuel) :
    K.Agrees st (FuncHead.relocate K.move) (K.Amid a b) c.ahead (r.funcHead d) c c' := by
  refine (Both.expect h.clear .identifier (by simp)).bind fun t u c₁ c₁' ⟨ht, h₁, l₁⟩ => ?_
  refine (Both.expect (h₁.here rfl).clear .lparen (by simp)).bind fun _ _ c₂ c₂' ⟨_, h₂, l₂⟩ => ?_
  refine (items_agrees (fun h hf => param_agrees hr d h hf) r.fuel h₂.1 (by omega)
    (by omega)).andThen fun params c₃ c₃' h₃ l₃ => ?_
  have hh₃ : K.Here (a + 1) b c₃ c₃' := ⟨h₃, twin_of_level h₃⟩
  refine (Both.expect hh₃.clear .rparen (by simp)).bind fun _ _ c₄ c₄' ⟨_, h₄, l₄⟩ => ?_
  refine (Both.expectOp (h₄.here rfl).clear "=>").bind fun _ _ c₅ c₅' ⟨_, h₅, l₅⟩ => ?_
  rw [ht.pos, ht.lexeme, List.map_id]
  exact Both.pure ⟨rfl, h₅.amid rfl, by omega⟩

theorem funcBody_agrees (hst : K.Firm st a) (h : K.Here a b c c') (hf : c.ahead < r.fuel)
    (head : FuncHead) (isMethod : Bool) :
    K.Gives st (Stmt.relocate K.move) (K.Ended a b) c.ahead
      (r.funcBody d head isMethod) (r.funcBody d (head.relocate K.move) isMethod) c c' := by
  refine (body_agrees hr d hst h hf).andThen fun body c₁ c₁' h₁ l₁ => ?_
  exact Gives.ended rfl h₁ (by omega)

theorem field_agrees (hst : K.Firm st a) (h : K.Here a b c c') (hf : c.ahead < r.fuel) :
    K.Agrees st (Field.relocate K.move) (K.Ended a b) c.ahead (r.field d) c c' := by
  refine Both.peek ?_
  extract_lets later
  have hlater {c₁ c₁' : Cursor} (h₁ : K.Here a b c₁ c₁') (l₁ : c₁.ahead ≤ c.ahead) :
      K.Agrees st (Field.relocate K.move) (K.Ended a b) c.ahead (later ()) c₁ c₁' := by
    refine (typedName_agrees h₁ (by omega)).andThen fun t c₂ c₂' h₂ l₂ => ?_
    refine Both.peek ?_
    extract_lets close
    have hclose (initial : Expr) {c₃ c₃' : Cursor} (h₃ : K.Done a b c₃ c₃')
        (l₃ : c₃.ahead < c.ahead) :
        K.Gives st (Field.relocate K.move) (K.Ended a b) c.ahead
          (close initial) (close (initial.relocate K.move)) c₃ c₃' := by
      exact Gives.ended rfl h₃ (by omega)
    refine Both.ite (by rw [h₂.here.2.isOp]) (fun hop => ?_) fun _ => ?_
    · have hk := (Token.isOp_iff.1 hop).1
      have l₃ := Cursor.ahead_advance_lt hk (by simp)
      refine Both.advance ((hr.expr d hst (h₂.here.advance hk (by simp)).1 (by omega)).andThen
        fun initial c₄ c₄' h₄ l₄ => ?_)
      exact hclose initial h₄ (by omega)
    · exact hclose .missing h₂.done (by omega)
  refine Both.ite (by rw [h.2.isKeyword]) (fun hv => ?_) fun _ => ?_
  · have hk := (Token.isKeyword_iff.1 hv).1
    have l₁ := Cursor.ahead_advance_lt hk (by simp)
    exact Both.advance (hlater ((h.advance hk (by simp)).here rfl) (by omega))
  · exact hlater h (Nat.le_refl _)

theorem typeDecl_agrees (hst : K.Firm st a) (h : K.Here a b c c') (hk : c.peek.kind = .keyword)
    (hf : c.ahead ≤ r.fuel) :
    K.Agrees st (Stmt.relocate K.move) (K.Ended a b) c.ahead (r.typeDecl d) c c' := by
  have h₁ := (h.advance hk (by simp)).here rfl
  have l₁ := Cursor.ahead_advance_lt hk (by simp)
  refine Both.advance ((Both.expect h₁.clear .identifier (by simp)).bind ?_)
  rintro t u c₂ c₂' ⟨ht, h₂, l₂⟩
  refine (Both.expect (h₂.here rfl).clear .newline (by simp)).bind fun _ _ c₃ c₃' ⟨_, h₃, l₃⟩ => ?_
  refine (Both.expect (hst.clear h₃.1) .indent (by simp)).bind fun _ _ c₄ c₄' ⟨_, h₄, l₄⟩ => ?_
  refine (lines_agrees (fun h hf => field_agrees hr d hst h hf) r.fuel h₄.ended
    (by omega) (by omega)).andThen fun fields c₅ c₅' h₅ l₅ => ?_
  rw [h.2.pos, ht.lexeme]
  exact Both.pure ⟨by rw [Stmt.relocate, relocateFields_eq_map], ⟨h₅.1, h₅.2.1⟩, by omega⟩

omit hr in
theorem importLib_agrees (h : K.Here a b c c') (hk : c.peek.kind = .keyword)
    (hf : c.ahead ≤ r.fuel) :
    K.Agrees st (Stmt.relocate K.move) (K.Ended a b) c.ahead r.importLib c c' := by
  have h₁ := (h.advance hk (by simp)).amid rfl
  have l₁ := Cursor.ahead_advance_lt hk (by simp)
  refine Both.advance (Both.peek ?_)
  extract_lets later later'
  have hlater (path : String) {c₂ c₂' : Cursor} (h₂ : K.Amid a b c₂ c₂')
      (l₂ : c₂.ahead < c.ahead) :
      K.Gives st (Stmt.relocate K.move) (K.Ended a b) c.ahead
        (later path) (later' path) c₂ c₂' := by
    refine Both.ite Iff.rfl (fun _ => ?_) fun _ => ?_
    · exact Both.failHere h₂.1 fun _ _ _ => rfl
    · refine Both.peek (Both.ite (by rw [h₂.here.2.isKeyword]) (fun has => ?_) fun _ => ?_)
      · have hk := (Token.isKeyword_iff.1 has).1
        have h₃ := (h₂.here.advance hk (by simp)).here rfl
        have l₃ := Cursor.ahead_advance_lt hk (by simp)
        refine Both.advance ((Both.expect h₃.clear .identifier (by simp)).bind ?_)
        rintro t u c₄ c₄' ⟨ht, h₄, l₄⟩
        rw [h.2.pos, ht.lexeme]
        exact Gives.ended rfl (h₄.amid rfl).done (by omega)
      · rw [h.2.pos]
        exact Gives.ended rfl h₂.done (by omega)
  refine Both.ite (by rw [h₁.here.2.kind]) (fun hs => ?_) fun _ => ?_
  · have l₂ := Cursor.ahead_advance_lt hs (by simp)
    refine Both.advance ?_
    rw [h₁.here.2.lexeme]
    exact hlater _ ((h₁.here.advance hs (by simp)).amid rfl) (by omega)
  · refine (importPath_agrees r.fuel h₁ (by omega)).andThen
      fun path c₂ c₂' h₂ l₂ => ?_
    exact hlater _ h₂ (by omega)

/-! ### Loops -/

theorem forIn_agrees (hst : K.Firm st a) (h : K.Here a b c c') (hf : c.ahead ≤ r.fuel)
    (pos : Pos) (index item : String) :
    K.Gives st (Stmt.relocate K.move) (K.Ended a b) c.ahead
      (r.forIn d pos index item) (r.forIn d (K.move pos) index item) c c' := by
  refine (Both.expectKeyword h.clear "in").bind fun _ _ c₁ c₁' ⟨_, h₁, l₁⟩ => ?_
  refine (hr.expr d hst h₁.1 (by omega)).andThen fun collection c₂ c₂' h₂ l₂ => ?_
  refine (block_agrees hr d hst h₂.1 (by omega)).andThen fun body c₃ c₃' h₃ l₃ => ?_
  exact Gives.ended rfl h₃ (by omega)

omit hr in
/-- No block starts anywhere but at a line end. -/
theorem block_error (h : c.peek.kind ≠ .newline) : ∃ e s, r.block d c = .error e s := by
  have hexpect : expect .newline c =
      .error (.atToken c.peek (.expectedKind .newline c.peek.text)) c := by
    change (if c.peek.kind = .newline then Parser.advance else Parser.fail c.peek _) c = _
    rw [if_neg h]
    rfl
  unfold block Nesting.enter
  split
  · exact ⟨_, _, rfl⟩
  · rw [pure_bind]
    exact ⟨_, _, bind_error hexpect⟩

theorem forLoop_agrees (hst : K.Firm st a) (h : K.Here a b c c') (hk : c.peek.kind = .keyword)
    (hf : c.ahead ≤ r.fuel) :
    K.Agrees st (Stmt.relocate K.move) (K.Ended a b) c.ahead (r.forLoop d) c c' := by
  have h₁ := (h.advance hk (by simp)).here rfl
  have l₁ := Cursor.ahead_advance_lt hk (by simp)
  refine Both.advance (Both.peek (Both.ite (by rw [h₁.2.kind]) (fun hb => ?_) fun _ => ?_))
  · have h₂ := (h₁.advance hb (by simp)).here rfl
    have l₂ := Cursor.ahead_advance_lt hb (by simp)
    refine Both.advance ((Both.expect h₂.clear .identifier (by simp)).bind ?_)
    rintro t u c₃ c₃' ⟨ht, h₃, l₃⟩
    refine (Both.expect (h₃.here rfl).clear .comma (by simp)).bind fun _ _ c₄ c₄' ⟨_, h₄, l₄⟩ => ?_
    refine (Both.expect (h₄.here rfl).clear .identifier (by simp)).bind ?_
    rintro t' u' c₅ c₅' ⟨ht', h₅, l₅⟩
    refine (Both.expect (h₅.here rfl).clear .rbracket (by simp)).bind ?_
    rintro _ _ c₆ c₆' ⟨-, h₆, l₆⟩
    rw [h.2.pos, ht.lexeme, ht'.lexeme]
    exact (forIn_agrees hr d hst (h₆.here rfl) (by omega) _ _ _).within (by omega)
  · refine (Both.expect h₁.clear .identifier (by simp)).bind fun t u c₂ c₂' ⟨ht, h₂, l₂⟩ => ?_
    have h₂ := h₂.here rfl
    rw [h.2.pos, ht.lexeme, ht.pos]
    refine Both.peek (Both.ite (by rw [h₂.2.isKeyword]) (fun _ => ?_) fun _ => ?_)
    · exact (forIn_agrees hr d hst h₂ (by omega) _ _ _).within (by omega)
    · refine (Both.expectOp h₂.clear "=").bind fun _ _ c₃ c₃' ⟨_, h₃, l₃⟩ => ?_
      refine (hr.expr d hst h₃.1 (by omega)).andThen fun first c₄ c₄' h₄ l₄ => ?_
      refine (Both.expectKeyword (hst.clear h₄.1) "to").bind fun _ _ c₅ c₅' ⟨_, h₅, l₅⟩ => ?_
      refine (hr.expr d hst h₅.1 (by omega)).andThen fun last c₆ c₆' h₆ l₆ => ?_
      refine Both.peek ?_
      extract_lets later later'
      have hlater (step : Expr) {c₇ c₇' : Cursor} (h₇ : K.Rel a b c₇ c₇')
          (l₇ : c₇.ahead < c.ahead) :
          K.Gives st (Stmt.relocate K.move) (K.Ended a b) c.ahead
            (later step) (later' (step.relocate K.move)) c₇ c₇' := by
        refine (block_agrees hr d hst h₇ (by omega)).andThen fun body c₈ c₈' h₈ l₈ => ?_
        exact Gives.ended (countingLoop_relocate K.move _ _ _ first last step body) h₈ (by omega)
      rcases K.peek h₆.1 with ht₆ | ⟨hj, hs⟩
      · refine Both.ite (by rw [ht₆.isKeyword]) (fun hby => ?_) fun _ => ?_
        · have hk := (Token.isKeyword_iff.1 hby).1
          have l₇ := Cursor.ahead_advance_lt hk (by simp)
          refine Both.advance ((hr.expr d hst (Here.advance ⟨h₆.1, ht₆⟩ hk (by simp)).1
            (by omega)).andThen fun step c₈ c₈' h₈ l₈ => ?_)
          exact hlater step h₈.1 (by omega)
        · exact hlater .missing h₆.1 (by omega)
      · -- at a seam the left run has no step and no block either
        refine Both.of_left_error hj ((hst.clear h₆.1).not_strict hs) ?_
        obtain ⟨e, s, he⟩ := block_error (r := r) d (c := c₆) (by simp [hs.left])
        rw [if_neg (by simp [Token.isKeyword, hs.left]), pure_bind]
        exact ⟨e, s, bind_error he⟩

/-! ### Statements -/

omit hr in
theorem isDeclaration_relocate (move : Pos → Pos) (s : Stmt) :
    isDeclaration (s.relocate move) = isDeclaration s := by
  cases s <;> rfl

theorem keywordStatement_agrees (hst : K.Firm st a) (h : K.Here a b c c')
    (hk : c.peek.kind = .keyword) (hf : c.ahead < r.fuel) :
    K.Agrees st (Stmt.relocate K.move) (K.Ended a b) c.ahead (r.keywordStatement d) c c' := by
  have h₁ := (h.advance hk (by simp)).amid rfl
  have l₁ := Cursor.ahead_advance_lt hk (by simp)
  refine Both.peek ?_
  rw [h.2.lexeme, h.2.pos]
  split
  · refine (ifParts_agrees hr d hst r.fuel h (by omega) (by omega)).andThen
      fun ⟨cond, yes, no⟩ c₂ c₂' h₂ l₂ => ?_
    exact Gives.ended rfl h₂ (by omega)
  · refine Both.advance ((hr.expr d hst h₁.1 (by omega)).andThen fun cond c₂ c₂' h₂ l₂ => ?_)
    refine (block_agrees hr d hst h₂.1 (by omega)).andThen fun body c₃ c₃' h₃ l₃ => ?_
    exact Gives.ended rfl h₃ (by omega)
  · exact forLoop_agrees hr d hst h hk (by omega)
  · refine (switchParts_agrees hr d hst h (by omega)).andThen fun ⟨subject, arms⟩ c₂ c₂' h₂ l₂ => ?_
    exact Gives.ended rfl h₂ (by omega)
  · refine Both.advance (Both.atLineEnd h₁.here fun e _ => ?_)
    extract_lets later later'
    have hlater (value : Expr) {c₂ c₂' : Cursor} (h₂ : K.Done a b c₂ c₂')
        (l₂ : c₂.ahead < c.ahead) :
        K.Gives st (Stmt.relocate K.move) (K.Ended a b) c.ahead
          (later value) (later' (value.relocate K.move)) c₂ c₂' := by
      exact Gives.ended rfl h₂ (by omega)
    refine Both.ite Iff.rfl (fun _ => ?_) fun _ => ?_
    · exact hlater .missing h₁.done l₁
    · refine (hr.expr d hst h₁.1 (by omega)).andThen fun value c₂ c₂' h₂ l₂ => ?_
      exact hlater value h₂ (by omega)
  iterate 2
    · exact Both.advance (Gives.ended rfl h₁.done (by omega))
  iterate 2
    · refine Both.advance ((declHead_agrees false h₁.here (by omega)).andThen
        fun head c₂ c₂' h₂ l₂ => ?_)
      exact (declValue_agrees hr d hst h₂.1 (by omega)
        { head with qualifier := c.peek.lexeme, pos := c.peek.pos }).within (by omega)
  · exact typeDecl_agrees hr d hst h hk (by omega)
  · exact importLib_agrees h hk (by omega)
  · refine Both.advance ((hr.stmt d hst h₁.here (by omega)).andThen fun decl c₂ c₂' h₂ l₂ => ?_)
    refine Both.ite (by rw [isDeclaration_relocate]) (fun _ => ?_) fun _ => ?_
    · exact Both.pure ⟨rfl, h₂, by omega⟩
    · exact Both.fail h₂.1 h.2 _
  · refine Both.advance ((funcHead_agrees hr d h₁.here (by omega)).andThen
      fun head c₂ c₂' h₂ l₂ => ?_)
    exact (funcBody_agrees hr d hst h₂.here (by omega) { head with pos := c.peek.pos } true).within
      (by omega)
  · exact Both.fail h.1 h.2 _

theorem simpleStatement_agrees (hst : K.Firm st a) (h : K.Here a b c c')
    (hf : c.ahead < r.fuel) :
    K.Agrees st (Stmt.relocate K.move) (K.Ended a b) c.ahead (r.simpleStatement d) c c' := by
  refine (simple_agrees hr d hst h hf).andThen fun s c₁ c₁' h₁ l₁ => ?_
  exact Gives.ended rfl h₁ (by omega)

theorem statement_agrees (hst : K.Firm st a) (h : K.Here a b c c') (hf : c.ahead < r.fuel) :
    K.Agrees st (Stmt.relocate K.move) (K.Ended a b) c.ahead (r.statement d) c c' := by
  have hsimple := simpleStatement_agrees hr d hst h hf
  have hdecl (head : DeclHead) {c₁ c₁' : Cursor} (h₁ : K.Amid a b c₁ c₁')
      (l₁ : c₁.ahead < c.ahead) :
      K.Gives st (Stmt.relocate K.move) (K.Ended a b) c.ahead
        (r.declValue d head) (r.declValue d (head.relocate K.move)) c₁ c₁' := by
    exact (declValue_agrees hr d hst h₁.1 (by omega) head).within (by omega)
  refine Both.peek ?_
  rw [h.2.kind]
  split
  · next hk => exact keywordStatement_agrees hr d hst h hk hf
  · refine (tupleHead_agrees h (by omega)).attempt.bind ?_
    rintro x y c₁ c₁' (⟨rfl, rfl, rfl, rfl⟩ | ⟨head, _, rfl, rfl, rfl, h₁, l₁⟩)
    · exact hsimple
    · exact hdecl head h₁ l₁
  · refine (funcHead_agrees hr d h hf).attempt.bind ?_
    rintro x y c₁ c₁' (⟨rfl, rfl, rfl, rfl⟩ | ⟨head, _, rfl, rfl, rfl, h₁, l₁⟩)
    · refine (declHead_agrees true h (by omega)).attempt.bind ?_
      rintro x y c₁ c₁' (⟨rfl, rfl, rfl, rfl⟩ | ⟨head, _, rfl, rfl, rfl, h₁, l₁⟩)
      · exact hsimple
      · exact hdecl head h₁ l₁
    · exact (funcBody_agrees hr d hst h₁.here (by omega) head false).within (by omega)
  · exact hsimple

end Rules

/-! ### The closed grammar -/

/-- **The rules of the closed grammar agree in two coupled runs.** -/
theorem agree_at (K : Coupling) : (n : Nat) → Rules.Agree K ⟨n, exprAt n, stmtAt n⟩
  | 0 => ⟨sound_at 0, fun _ _ _ hf => absurd hf (Nat.not_lt_zero _),
      fun _ _ _ hf => absurd hf (Nat.not_lt_zero _)⟩
  | n + 1 =>
    have hr := agree_at K n
    ⟨sound_at (n + 1), fun d hst h hf => Rules.expression_agrees hr d hst h (Nat.le_of_lt_succ hf),
      fun d hst h hf => Rules.statement_agrees hr d hst h (Nat.lt_of_succ_lt_succ hf)⟩

end Pine.Grammar
