import Pine.Proofs.Grammar.Laws

/-!
# Programs and the bounds of rules

The closed rules, which count the nesting and have bounds, read what the rules read that take the
nesting as an argument, as soon as the bounds are past the number of tokens left. Then no bound is
met, and which bounds there are plays no role. The loop over the statements of a program needs one
round at most for each token.
-/

namespace Pine

namespace Rule

open Pine.Parser Grammar

variable {c : Cursor}

theorem mirrors_free {m n n' : Nat} (hn : m ≤ n) (hn' : m ≤ n') :
    (partsAt n).Mirrors Free (rulesAt n') m :=
  mirrors_at (fun _ _ => trivial) m n n' hn hn'

theorem precedes_skipTo : (past rest : List Token) →
    Cursor.Precedes ⟨past, rest⟩ (skipTo past rest)
  | _, [] => .refl _
  | past, t :: rest => by
    unfold skipTo
    split
    · exact .refl _
    · exact Cursor.Precedes.trans ⟨[t], rfl, rfl⟩ (precedes_skipTo (t :: past) rest)

theorem precedes_synchronize (c : Cursor) : c.advance.Precedes (synchronize c) :=
  precedes_skipTo c.advance.past c.advance.rest

/-- Reading goes on behind an error. -/
theorem ahead_synchronize_lt {c' : Cursor} (h : c.Precedes c') (hk : c.peek.kind ≠ .eof) :
    (synchronize c').ahead < c.ahead := by
  have hskip := (precedes_synchronize c').ahead_le
  have hle := h.ahead_le
  have hpos := ahead_pos hk
  have hadvance : c'.advance.ahead = c'.ahead - 1 := by
    obtain ⟨past, rest⟩ := c'
    cases rest <;> rfl
  omega

/-- **The loop over the statements ends by itself**: one round for each token left is enough, and it
gives what the loop of the other form gives. -/
theorem program_eq {stmt : Rule Stmt} {stmt' : Nesting → Parser Stmt} {m : Nat}
    (h : ∀ c, c.ahead ≤ m → At Free 1 stmt stmt' c) (d : Nesting) :
    (n n' errors : Nat) → (c : Cursor) → c.ahead ≤ n → c.ahead ≤ n' →
    c.ahead ≤ m → program stmt n errors ⟨c, d.depth, d.limit⟩ =
      some (Grammar.program (stmt' d) n' errors c)
  | 0, n', errors, c, hn, _, _ => by
    have hk : c.peek.kind = .eof := Decidable.byContradiction fun hk => by
      have := ahead_pos hk
      omega
    rw [program, if_pos hk]
    cases n' with
    | zero => rfl
    | succ n' => rw [Grammar.program, hk]
  | n + 1, 0, errors, c, _, hn', _ => by
    have hk : c.peek.kind = .eof := Decidable.byContradiction fun hk => by
      have := ahead_pos hk
      omega
    rw [program]
    dsimp only
    rw [hk, Grammar.program]
  | n + 1, n' + 1, errors, c, hn, hn', hm => by
    have ih (errors : Nat) (c' : Cursor) (hc' : c'.ahead < c.ahead) :=
      program_eq h d n n' errors c' (by omega) (by omega) (by omega)
    have hadvance (hk : c.peek.kind ≠ .eof) : c.advance.ahead < c.ahead :=
      ((at_advance (L := Free) (ahead_pos hk)).moves ⟨0, 0⟩).2
    have hs := (h c hm).agrees d
    have hmoves := (h c hm).moves d
    rw [program, Grammar.program]
    dsimp only
    rw [hs]
    cases hk : c.peek.kind
    case eof => rfl
    case newline | indent | dedent => exact ih _ _ (hadvance (by simp [hk]))
    all_goals
      cases hq : stmt' d c with
      | ok s c' =>
        rw [hq] at hmoves
        change (program stmt n errors ⟨c', d.depth, d.limit⟩ >>= _) = _
        rw [ih errors c' hmoves.2]
        rfl
      | error e c' =>
        rw [hq] at hmoves
        dsimp only [outcome]
        split
        · rfl
        · rw [ih _ _ (ahead_synchronize_lt hmoves (by simp [hk]))]
          rfl

/-- Bounds past the number of tokens left make no difference. -/
theorem program_congr {fuel fuel' n n' : Nat} (hf : c.ahead + 1 < fuel) (hf' : c.ahead + 1 < fuel')
    (hn : c.ahead ≤ n) (hn' : c.ahead ≤ n') (d : Nesting) (errors : Nat) :
    Grammar.program (Grammar.stmtAt fuel d) n errors c =
      Grammar.program (Grammar.stmtAt fuel' d) n' errors c := by
  have hread {k m : Nat} (hk : c.ahead + 1 < k) (hm : c.ahead ≤ m) :=
    program_eq (m := c.ahead) (fun c' hc' =>
      (mirrors_free (Nat.le_refl (c.ahead + 2)) hk).stmt c' (by omega)) d c.ahead m errors c
      (Nat.le_refl _) hm (Nat.le_refl _)
  exact Option.some.inj ((hread hf hn).symm.trans (hread hf' hn'))

end Rule

/-- **A program is what the rules that take the nesting read.** -/
theorem Program.parse_eq_program (limits : Limits) (tokens : List Token) :
    Program.parse limits tokens =
      if 0 < limits.maxTokens ∧ limits.maxTokens < tokens.length then
        ⟨[], [⟨.tooManyTokens tokens.length limits.maxTokens, 1, 1, ""⟩]⟩
      else
        let read := Grammar.program (Grammar.stmtAt (tokens.length + 2) ⟨0, limits.maxDepth⟩)
          (tokens.length + 1) 0 (Cursor.start tokens)
        ⟨read.1, read.2⟩ := by
  have hparts := Rule.mirrors_free (Nat.le_refl (tokens.length + 2)) (Nat.le_refl _)
  have hread := Rule.program_eq (m := tokens.length) (fun c hc => hparts.stmt c (by omega))
    ⟨0, limits.maxDepth⟩ tokens.length (tokens.length + 1) 0 (.start tokens) (Nat.le_refl _)
    (Nat.le_succ _) (Nat.le_refl _)
  unfold Program.parse
  dsimp only
  split
  · rfl
  · have hdef : Rule.program (Rule.stmtAt (tokens.length + 2)) tokens.length 0
        ⟨Cursor.start tokens, 0, limits.maxDepth⟩ = _ := hread
    rw [hdef]
    rfl

end Pine
