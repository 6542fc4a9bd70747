import Pine.Proofs.Compile.Reading
import Pine.Proofs.Grammar.Sound
import Pine.Proofs.Token.Places

/-!
# The errors of a reading

A statement that fails has its error at a token that it moved over or at the one where it stopped,
and reading goes on behind that token. So each error of a reading has a token of its own, and these
tokens are met in the order in which they stand. The tokens of a source stand at positions that
never go back, hence neither do its errors, and the first error is the earliest.
-/

namespace Pine

open List

/-- On an earlier line, or on the same one and not further right. -/
def Pos.UpTo (p q : Pos) : Prop := p.Before q ∨ p = q

theorem Token.Leads.upTo {t : Token} {p : Pos} (h : t.Leads p) : t.pos.UpTo p :=
  h.imp_right And.right

/-! ### The token of an error -/

namespace Cursor

variable {c c' : Cursor} {e : ParseError}

theorem Precedes.sublist (h : c.Precedes c') : c'.rest.Sublist c.rest := by
  obtain ⟨used, hr, -⟩ := h
  exact hr ▸ sublist_append_right used c'.rest

/-- An error stands at one of the tokens, and reading can go on behind it. -/
theorem Fails.exists_sublist (h : c.Fails e c') (hne : c.rest ≠ []) :
    ∃ t, e.pos = t.pos ∧ (t :: c'.advance.rest).Sublist c.rest := by
  obtain ⟨used, ⟨hr, hp⟩, t, ht, hmem⟩ := h
  have hused {u : Token} (hu : u ∈ used) : (u :: c'.advance.rest).Sublist c.rest :=
    hr ▸ (singleton_sublist.2 hu).append c'.precedes_advance.sublist
  rcases hmem with hmem | rfl | hmem
  · exact ⟨t, ht, hused hmem⟩
  · obtain ⟨past, rest⟩ := c'
    cases rest with
    | cons u rest => exact ⟨u, ht, hr ▸ sublist_append_right used (u :: rest)⟩
    | nil =>
      -- past the last token, an error stands at the last token
      have hne' : used ≠ [] := by simpa [hr] using hne
      obtain ⟨before, u, rfl⟩ := (eq_nil_or_concat' used).resolve_left hne'
      refine ⟨u, ?_, hused (by simp)⟩
      rw [ht, peek, hp]
      simp [endAfter, Token.pos]
  · exact hmem.elim

end Cursor

/-! ### Errors of a reading -/

namespace Grammar

open Pine.Parser

theorem sublist_synchronize (c : Cursor) : (synchronize c).rest.Sublist c.advance.rest :=
  (Rule.precedes_synchronize c).sublist

/-- **Errors stand at tokens, a later error at a later token.** -/
theorem errors_program {stmt : Parser Stmt} (h : ∀ c, ∃ R, Follows stmt c R) :
    (n errors : Nat) → (c : Cursor) → ∃ ts : List Token, ts.Sublist c.rest ∧
      (program stmt n errors c).2.map ParseError.pos = ts.map Token.pos
  | 0, _, c => ⟨[], nil_sublist _, rfl⟩
  | n + 1, errors, c => by
    have hnext {c' : Cursor} (hc : c'.rest.Sublist c.rest) : ∃ ts : List Token,
        ts.Sublist c.rest ∧ (program stmt n errors c').2.map ParseError.pos = ts.map Token.pos := by
      obtain ⟨ts, hts, heq⟩ := errors_program h n errors c'
      exact ⟨ts, hts.trans hc, heq⟩
    obtain ⟨R, hs⟩ := h c
    unfold Follows FollowsOr at hs
    unfold program
    split
    · exact ⟨[], nil_sublist _, rfl⟩
    iterate 3 exact hnext c.precedes_advance.sublist
    · next hk _ _ _ =>
      split
      · next heq =>
        rw [heq] at hs
        exact hnext hs.1.sublist
      · next e c' heq =>
        rw [heq] at hs
        have hne : c.rest ≠ [] := fun hr => hk (by simp [Cursor.peek, hr])
        obtain ⟨t, ht, hsub⟩ := Cursor.Fails.exists_sublist hs hne
        split
        · exact ⟨[t], (nil_sublist _).cons_cons t |>.trans hsub, by simp [ht]⟩
        · obtain ⟨ts, hts, hmap⟩ := errors_program h n (errors + 1) (synchronize c')
          have hbehind := hts.trans (sublist_synchronize c')
          exact ⟨t :: ts, (hbehind.cons_cons t).trans hsub, by simp [ht, hmap]⟩

/-- Reading is given up at the last error that counts. -/
theorem length_errors_program (stmt : Parser Stmt) : (n errors : Nat) → (c : Cursor) →
    errors < maxErrors → errors + (program stmt n errors c).2.length ≤ maxErrors
  | 0, _, _, h => h.le
  | n + 1, errors, c, h => by
    unfold program
    split
    · exact h.le
    iterate 3 exact length_errors_program stmt n errors _ h
    · split
      · exact length_errors_program stmt n errors _ h
      · next e c' _ =>
        split
        · exact h
        · next hmore =>
          have ih := length_errors_program stmt n (errors + 1) (synchronize c') (by omega)
          rw [length_cons]
          omega

end Grammar

namespace Program

theorem length_errors_parse (limits : Limits) (tokens : List Token) :
    (parse limits tokens).errors.length ≤ Grammar.maxErrors := by
  rw [parse_eq_program]
  split
  · exact Nat.le_add_left 1 49
  · have hle := Grammar.length_errors_program (Grammar.stmtAt (tokens.length + 2)
      ⟨0, limits.maxDepth⟩) (tokens.length + 1) 0 (.start tokens) (by decide)
    rwa [Nat.zero_add] at hle

/-- Without a ceiling on the tokens, the errors stand at tokens in their order. -/
theorem errors_parse (limits : Limits) {tokens : List Token}
    (h : ¬ (0 < limits.maxTokens ∧ limits.maxTokens < tokens.length)) : ∃ ts : List Token,
      ts.Sublist tokens ∧ (parse limits tokens).errors.map ParseError.pos = ts.map Token.pos := by
  rw [parse_eq_program, if_neg h]
  have hstmt := (Grammar.sound_at (tokens.length + 2)).stmt ⟨0, limits.maxDepth⟩
  exact Grammar.errors_program (fun c => ⟨_, hstmt c⟩) _ 0 (.start tokens)

/-- Positions of errors go back no more than those of tokens. -/
theorem pairwise_errors_parse (limits : Limits) {tokens : List Token}
    (h : tokens.Pairwise fun t u => t.Leads u.pos) :
    (parse limits tokens).errors.Pairwise fun e e' => e.pos.UpTo e'.pos := by
  by_cases hcount : 0 < limits.maxTokens ∧ limits.maxTokens < tokens.length
  · rw [parse, if_pos hcount]
    exact pairwise_singleton _ _
  · obtain ⟨ts, hts, hmap⟩ := errors_parse limits hcount
    have hpos : (ts.map Token.pos).Pairwise Pos.UpTo :=
      pairwise_map.2 ((h.sublist hts).imp Token.Leads.upTo)
    rw [← hmap] at hpos
    exact pairwise_map.1 hpos

end Program

namespace Source

/-- The error that reading reports is the earliest. -/
theorem upTo_of_read {limits : Limits} {source : List Char} {first : ParseError}
    {more : List ParseError} (h : read limits source = .error (.parse first more)) :
    ∀ e ∈ more, first.pos.UpTo e.pos := by
  have horder := Program.pairwise_errors_parse limits (Token.leads_lex limits.maxTokens source)
  unfold read at h
  dsimp only at h
  split at h
  · cases h
  · split at h
    · cases h
    · next first' more' heq =>
      rw [heq] at horder
      cases h
      exact (pairwise_cons.1 horder).1

/-- **The errors of a source come out in source order**: there are at most fifty of them, they stand
at tokens, and their positions never go back. So the first of them, which is the one that reading
and compiling report, is the earliest. -/
theorem errors_in_order (depth : Nat) (source : List Char) :
    let tokens := (Token.lex 0 source).tokens
    let errors := (Program.parse ⟨0, depth⟩ tokens).errors
    errors.length ≤ 50 ∧ errors.Pairwise (fun e e' => e.pos.UpTo e'.pos) ∧
      (∀ e ∈ errors, ∃ t ∈ tokens, e.pos = t.pos) ∧
      (∀ limits first more, read limits source = .error (.parse first more) →
        ∀ e ∈ more, first.pos.UpTo e.pos) ∧
      ∀ options first more, compile options source = .error (.reading (.parse first more)) →
        ∀ e ∈ more, first.pos.UpTo e.pos := by
  intro tokens errors
  refine ⟨Program.length_errors_parse _ _, Program.pairwise_errors_parse _ (Token.leads_lex ..),
    fun e he => ?_, fun limits first more h => upTo_of_read h, fun options first more h => ?_⟩
  · have hceiling : ¬ (0 < 0 ∧ 0 < tokens.length) := by simp
    obtain ⟨ts, hts, hmap⟩ := Program.errors_parse ⟨0, depth⟩ hceiling
    obtain ⟨t, ht, hpos⟩ := mem_map.1 (hmap ▸ mem_map_of_mem (f := ParseError.pos) he)
    exact ⟨t, hts.subset ht, hpos.symm⟩
  · unfold compile at h
    split at h
    · dsimp only at h
      split at h
      · next heq =>
        cases h
        exact upTo_of_read heq
      · next program _ =>
        unfold Program.compile at h
        dsimp only at h
        split at h <;> cases h
    · cases h

theorem errors_in_order_twoLines :
    (Program.parse ⟨0, 0⟩ (Token.lex 0 "a = )\nb = )".toList).tokens).errors.map ParseError.pos =
        [⟨1, 5⟩, ⟨2, 5⟩] ∧
      ∀ first more, read ⟨0, 0⟩ "a = )\nb = )".toList = .error (.parse first more) →
        ∀ e ∈ more, first.pos.UpTo e.pos :=
  ⟨by decide +kernel, (errors_in_order 0 "a = )\nb = )".toList).2.2.2.1 ⟨0, 0⟩⟩

end Source

end Pine
