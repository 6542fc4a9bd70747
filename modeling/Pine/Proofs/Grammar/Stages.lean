import Pine.Proofs.Grammar.TypeArgs

/-!
# Levels of precedence

There is one rule for every level of precedence: the choice at level zero, the operators between
two operands at the levels one to six, the operators in front of an operand at level seven, and
what follows a primary expression at level eight. The rule of a level reads an operand of the next
level first and then goes on with what its own operators join to it. An operand *begins* a level if
the rule reads it and is left with what it does after an operand; it is *taken* at a level if the
rule reads it and stops there. An operand that begins a level is taken if nothing that the level
could go on with follows it.
-/

namespace Pine.Grammar

open Pine.Parser Rules List

/-! ### The rules of the levels -/

theorem expr_rulesAt (n : Nat) : (rulesAt n).expr = exprAt n := rfl

/-- The operators of a level. -/
def opsAt (k : Nat) : List BinaryOp := BinaryOp.known.filter (·.level = k)

/-- The rule of a level; `m` bounds the operators in front of an operand. -/
def stage (r : Rules) (d : Nesting) (m k : Nat) : Parser Expr :=
  if k = 0 then r.ternary d
  else if k = 8 then r.suffixed d
  else if k = 7 then r.unary m d
  else r.binary d (levels.drop (k - 1))

/-- What the rule of a level does after an operand. -/
def goOn (r : Rules) (d : Nesting) (m k : Nat) (e : Expr) : Parser Expr :=
  if k = 8 then r.suffixes d m e
  else if 0 < k ∧ k < 7 then chain (r.binary d (levels.drop k)) (opsAt k) m e
  else return e

section Stage

variable (r : Rules) (d : Nesting)

/-- A level of operators between operands, in terms of the next level. -/
theorem stage_eq_bind {m k : Nat} (hk : k < 6) : stage r d m (k + 1) =
    stage r d r.fuel (k + 2) >>= goOn r d r.fuel (k + 1) := by
  match k, hk with
  | 0, _ | 1, _ | 2, _ | 3, _ | 4, _ | 5, _ => rfl

theorem goOn_eq_chain {m k : Nat} (hk : k < 6) (e : Expr) :
    goOn r d m (k + 1) e = chain (stage r d r.fuel (k + 2)) (opsAt (k + 1)) m e := by
  match k, hk with
  | 0, _ | 1, _ | 2, _ | 3, _ | 4, _ | 5, _ => rfl

end Stage

/-! ### What a level does not go on with -/

/-- The level and the tighter ones do not go on with the tokens. -/
structure Stops (k : Nat) (t : Token) (tail : List Token) : Prop where
  paren : t.kind ≠ .lparen
  dot : t.kind ≠ .dot
  bracket : t.kind ≠ .lbracket
  ops : ∀ op ∈ BinaryOp.known, k ≤ op.level → t.isOp op.spelling = false
  choice : k = 0 → t.isOp "?" = false
  types : t.isOp "<" = true → NoTypeArgs (t :: tail)

/-- There are more tokens, and the level and the tighter ones do not go on with them. -/
def StopsAt (k : Nat) (rest : List Token) : Prop := ∃ t tail, rest = t :: tail ∧ Stops k t tail

theorem StopsAt.mono {j k : Nat} {rest : List Token} (h : StopsAt k rest) (hjk : k ≤ j) :
    StopsAt j rest := by
  obtain ⟨t, tail, rfl, h⟩ := h
  refine ⟨t, tail, rfl, { h with ops := fun op hop hj => ?_, choice := fun hj => ?_ }⟩
  · exact h.ops op hop (Nat.le_trans hjk hj)
  · exact h.choice (by omega)

theorem StopsAt.kind_ne {k : Nat} {rest : List Token} (h : StopsAt k rest) :
    ∀ t ∈ rest.head?, t.kind ≠ .lparen := by
  obtain ⟨t, tail, rfl, h⟩ := h
  rintro _ ⟨⟩
  exact h.paren

/-- The kinds of the tokens that end an operand at any level. -/
def endsOperand : Token.Kind → Bool
  | .rparen | .rbracket | .comma | .colon | .newline => true
  | _ => false

/-- No level goes on with a closing bracket, a comma, a colon or a line end. -/
theorem stopsAt_of_endsOperand (k : Nat) {t : Token} (ht : endsOperand t.kind = true)
    (tail : List Token) : StopsAt k (t :: tail) := by
  have hop (s : String) : t.isOp s = false := by
    cases hs : t.isOp s with
    | false => rfl
    | true => rw [(Token.isOp_iff.1 hs).1] at ht; cases ht
  refine ⟨t, tail, rfl, ?_, ?_, ?_, fun op _ _ => hop _, fun _ => hop "?", fun h => ?_⟩
  · rintro h
    rw [h] at ht
    cases ht
  · rintro h
    rw [h] at ht
    cases ht
  · rintro h
    rw [h] at ht
    cases ht
  · rw [hop] at h
    cases h

/-- A level does not go on with an operator that is not one of its own or of a tighter one. -/
theorem stopsAt_op {k : Nat} {t : Token} {s : String} (ht : t.word = Word.op s)
    (hops : ∀ op ∈ BinaryOp.known, k ≤ op.level → op.spelling ≠ s) (hchoice : k = 0 → s ≠ "?")
    {tail : List Token} (htypes : s = "<" → NoTypeArgs (t :: tail)) : StopsAt k (t :: tail) := by
  have hkind : t.kind = .operator := congrArg Prod.fst ht
  have hlex : t.lexeme = s := congrArg Prod.snd ht
  have hop (u : String) : t.isOp u = true ↔ s = u := by rw [Token.isOp_iff, hlex]; simp [hkind]
  refine ⟨t, tail, rfl, by simp [hkind], by simp [hkind], by simp [hkind], ?_, ?_, ?_⟩
  · intro op hmem hk
    rw [← Bool.not_eq_true, hop]
    exact fun h => hops op hmem hk h.symm
  · intro hk
    rw [← Bool.not_eq_true, hop]
    exact hchoice hk
  · intro h
    exact htypes ((hop "<").1 h)

section Stop

variable (r : Rules) (d : Nesting) {e : Expr} {t : Token} {tail past : List Token}

theorem chain_stop {k : Nat} (h : Stops k t tail) (next : Parser Expr) (m : Nat) :
    chain next (opsAt k) m e ⟨past, t :: tail⟩ = .ok e ⟨past, t :: tail⟩ := by
  cases m with
  | zero => rfl
  | succ m =>
    change (if (opsAt k).any (fun op => t.isOp op.spelling) = true then _ else _ : Parser Expr) _ = _
    rw [if_neg]
    · rfl
    · rw [any_eq_true]
      rintro ⟨op, hop, ht⟩
      obtain ⟨hknown, hk⟩ := mem_filter.1 hop
      rw [h.ops op hknown (Nat.le_of_eq (of_decide_eq_true hk).symm)] at ht
      cases ht

theorem suffixes_of_kind_ne {m : Nat} (hp : t.kind ≠ .lparen) (hd : t.kind ≠ .dot)
    (hb : t.kind ≠ .lbracket) : r.suffixes d (m + 1) e ⟨past, t :: tail⟩ =
      (if (t.isOp "<" && isCallee e) = true then do
        match ← attempt (callTypeArgs r.fuel) with
        | none => return e
        | some types =>
          let args ← r.args d
          r.suffixes d m (.call e.pos 0 e args types)
      else return e : Parser Expr) ⟨past, t :: tail⟩ := by
  rw [suffixes, bind_ok (peek_ok t past tail)]
  refine congrFun ?_ _
  split
  · contradiction
  · contradiction
  · contradiction
  · rfl

theorem suffixes_stop {k : Nat} (h : Stops k t tail) (m : Nat) :
    r.suffixes d m e ⟨past, t :: tail⟩ = .ok e ⟨past, t :: tail⟩ := by
  cases m with
  | zero => rfl
  | succ m =>
    rw [suffixes_of_kind_ne r d h.paren h.dot h.bracket]
    split
    · next hlt =>
      rw [Bool.and_eq_true] at hlt
      rw [bind_ok (attempt_none fun a c' => h.types hlt.1 _ _ a c')]
      rfl
    · rfl

/-- A level stops in front of what it does not go on with. -/
theorem goOn_stop {k : Nat} {rest : List Token} (h : StopsAt k rest) (m : Nat) :
    goOn r d m k e ⟨past, rest⟩ = .ok e ⟨past, rest⟩ := by
  obtain ⟨t, tail, rfl, h⟩ := h
  unfold goOn
  split
  · exact suffixes_stop r d h m
  · split
    · exact chain_stop h _ m
    · rfl

end Stop

/-! ### What is read at a level -/

section Read

variable {k : Nat} {e : Expr} {ts rest : List Token}

/-- The rule of a level reads the tokens as an expression and is left with what it does after an
operand. -/
def Begins (k : Nat) (e : Expr) (ts rest : List Token) : Prop :=
  ∀ n m depth past, ts.length ≤ n → ts.length ≤ m → ∃ m' e', n ≤ m' + ts.length ∧
    e'.erase = e.erase ∧ stage (rulesAt n) ⟨depth, 0⟩ m k ⟨past, ts ++ rest⟩ =
      goOn (rulesAt n) ⟨depth, 0⟩ m' k e' ⟨ts.reverse ++ past, rest⟩

/-- The rule of a level reads the tokens as an expression and stops there. -/
def Takes (k : Nat) (e : Expr) (ts rest : List Token) : Prop :=
  ∀ n m depth past, ts.length ≤ n → ts.length ≤ m → ∃ e', e'.erase = e.erase ∧
    stage (rulesAt n) ⟨depth, 0⟩ m k ⟨past, ts ++ rest⟩ = .ok e' ⟨ts.reverse ++ past, rest⟩

/-- **What begins a level is taken where the level stops.** -/
theorem Begins.takes (h : Begins k e ts rest) (hf : StopsAt k rest) : Takes k e ts rest := by
  intro n m depth past hn hm
  obtain ⟨m', e', -, he, hrun⟩ := h n m depth past hn hm
  exact ⟨e', he, by rw [hrun, goOn_stop _ _ hf]⟩

/-- The tightest level that must stop after an operand of a level. -/
def due (k : Nat) : Nat := if k = 0 then 0 else k + 1

/-- The tokens do not start with an operator. -/
def StartsTight (ts : List Token) : Prop := ∃ t us, ts = t :: us ∧ t.kind ≠ .operator

theorem enter_unlimited (depth : Nat) (c : Cursor) :
    (⟨depth, 0⟩ : Nesting).enter c = .ok ⟨depth + 1, 0⟩ c := rfl

theorem unary_of_kind_ne (r : Rules) (d : Nesting) (m : Nat) {t : Token} (ht : t.kind ≠ .operator)
    (past tail : List Token) :
    r.unary (m + 1) d ⟨past, t :: tail⟩ = r.suffixed d ⟨past, t :: tail⟩ := by
  have hop (s : String) : t.isOp s = false := by
    rw [← Bool.not_eq_true, Token.isOp_iff]
    exact fun h => ht h.1
  rw [unary, bind_ok (peek_ok t past tail)]
  rw [if_neg (by simp [hop])]

theorem ternary_stop {n depth : Nat} {e : Expr} {c : Cursor} {past rest : List Token}
    (h : stage (rulesAt n) ⟨depth, 0⟩ n 1 c = .ok e ⟨past, rest⟩) (hf : StopsAt 0 rest) :
    (rulesAt n).ternary ⟨depth, 0⟩ c = .ok e ⟨past, rest⟩ := by
  obtain ⟨t, tail, rfl, hs⟩ := hf
  rw [ternary, bind_ok (show (rulesAt n).binary ⟨depth, 0⟩ levels c = _ from h)]
  change (if t.isOp "?" = true then _ else pure e : Parser Expr) _ = _
  rw [if_neg (by simp [hs.choice rfl])]
  rfl

/-- What begins a level begins the next looser one. -/
theorem Begins.pred (hk : k < 8) (h : Begins (k + 1) e ts rest) (hf : StopsAt (due k) rest)
    (ht : k = 7 → StartsTight ts) : Begins k e ts rest := by
  have hf' : StopsAt (k + 1) rest := hf.mono (by unfold due; split <;> omega)
  intro n m depth past hn hm
  obtain ⟨e', he, hrun⟩ := h.takes hf' n n depth past hn hn
  refine ⟨n, e', Nat.le_add_right n _, he, ?_⟩
  rcases Nat.eq_zero_or_pos k with rfl | hpos
  · exact ternary_stop hrun hf
  · rcases Nat.lt_or_ge k 7 with hlt | hge
    · obtain ⟨k, rfl⟩ : ∃ j, k = j + 1 := ⟨k - 1, by omega⟩
      rw [stage_eq_bind _ _ (by omega)]
      exact bind_ok hrun
    · obtain rfl : k = 7 := by omega
      obtain ⟨t, us, rfl, hop⟩ := ht rfl
      obtain ⟨m, rfl⟩ : ∃ j, m = j + 1 := ⟨m - 1, by simp at hm; omega⟩
      exact (unary_of_kind_ne _ _ m hop past (us ++ rest)).trans hrun

/-- **What begins a level begins the looser ones**, if what must stop at the loosest one stops. -/
theorem Begins.lower {j : Nat} (hk : k ≤ 8) (h : Begins k e ts rest) (hjk : j ≤ k)
    (hf : j < 8 → StopsAt (due j) rest) (ht : k = 8 → StartsTight ts) : Begins j e ts rest := by
  induction k with
  | zero =>
    rw [Nat.le_zero.1 hjk]
    exact h
  | succ k ih =>
    rcases Nat.eq_or_lt_of_le hjk with rfl | hlt
    · exact h
    · have hf' : StopsAt (due k) rest :=
        (hf (by omega)).mono (by unfold due; split <;> split <;> omega)
      have hpred := h.pred (by omega) hf' fun h7 => ht (by omega)
      exact ih (by omega) hpred (by omega) fun h8 => absurd h8 (by omega)

/-! ### Expressions in parentheses -/

/-- What is taken at level zero is an expression. -/
theorem Takes.expr (h : Takes 0 e ts rest) {n : Nat} (hn : ts.length < n) (depth : Nat)
    (past : List Token) : ∃ e', e'.erase = e.erase ∧
      exprAt n ⟨depth, 0⟩ ⟨past, ts ++ rest⟩ = .ok e' ⟨ts.reverse ++ past, rest⟩ := by
  obtain ⟨n, rfl⟩ : ∃ j, n = j + 1 := ⟨n - 1, by omega⟩
  obtain ⟨e', he, hrun⟩ := h n n (depth + 1) past (by omega) (by omega)
  refine ⟨e', he, ?_⟩
  change (rulesAt n).expression ⟨depth, 0⟩ _ = _
  rw [expression, bind_ok (enter_unlimited depth _)]
  exact hrun

/-- What the rule of primary expressions reads begins level eight. -/
theorem begins_of_primary (h : ∀ n depth past, ts.length ≤ n → ∃ e', e'.erase = e.erase ∧
    (rulesAt n).primary ⟨depth, 0⟩ ⟨past, ts ++ rest⟩ = .ok e' ⟨ts.reverse ++ past, rest⟩) :
    Begins 8 e ts rest := by
  intro n m depth past hn _
  obtain ⟨e', he, hrun⟩ := h n depth past hn
  refine ⟨n, e', Nat.le_add_right n _, he, ?_⟩
  change (rulesAt n).suffixed _ _ = _
  rw [suffixed, bind_ok hrun]
  rfl

/-- **What is taken at level zero begins level eight in parentheses.** -/
theorem Takes.grouped {lp rp : Token} (h : Takes 0 e ts (rp :: rest)) (hlp : lp.kind = .lparen)
    (hrp : rp.kind = .rparen) : Begins 8 e (lp :: ts ++ [rp]) rest := by
  refine begins_of_primary fun n depth past hn => ?_
  obtain ⟨e', he, hrun⟩ := h.expr (n := n) (by simp at hn; omega) depth (lp :: past)
  refine ⟨e', he, ?_⟩
  have hlist : lp :: ts ++ [rp] ++ rest = lp :: (ts ++ rp :: rest) := by simp
  rw [hlist, primary, bind_ok (peek_ok ..), hlp]
  change (advance >>= fun _ => exprAt n ⟨depth, 0⟩ >>= fun e => expect .rparen >>= fun _ => pure e)
    (Cursor.mk past (lp :: (ts ++ rp :: rest))) = _
  rw [bind_ok (advance_ok ..), bind_ok hrun, bind_ok (expect_ok hrp ..)]
  simp [pure, EStateM.pure]

/-- What one more suffix makes of an operand begins level eight if the operand does. -/
theorem Begins.suffix {object : Expr} {us : List Token} (h : Begins 8 object ts (us ++ rest))
    (hus : us ≠ []) (hstep : ∀ n m depth past object', us.length ≤ n → object'.erase = object.erase →
      ∃ e', e'.erase = e.erase ∧
        (rulesAt n).suffixes ⟨depth, 0⟩ (m + 1) object' ⟨past, us ++ rest⟩ =
          (rulesAt n).suffixes ⟨depth, 0⟩ m e' ⟨us.reverse ++ past, rest⟩) :
    Begins 8 e (ts ++ us) rest := by
  intro n m depth past hn hm
  rw [length_append] at hn hm
  obtain ⟨j, object', hj, hobject, hrun⟩ := h n m depth past (by omega) (by omega)
  have hpos := length_pos_iff.2 hus
  obtain ⟨j, rfl⟩ : ∃ i, j = i + 1 := ⟨j - 1, by omega⟩
  obtain ⟨e', he, hnext⟩ := hstep n j depth (ts.reverse ++ past) object' (by omega) hobject
  refine ⟨j, e', by rw [length_append]; omega, he, ?_⟩
  rw [append_assoc, hrun, reverse_append, append_assoc]
  exact hnext

end Read

end Pine.Grammar
