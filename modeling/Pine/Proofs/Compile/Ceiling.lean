import Pine.Proofs.Compile.Limits

/-!
# The ceiling on the number of tokens

A ceiling is looked at in two places. The layout compares it with the tokens made so far after every
piece, before the tokens that close the source exist; the parser compares it with all tokens. The
first comparison can only stop a run that is too long, since tokens are never taken back, and the
second one finds what the first one missed. So a source is read under a ceiling as it is read
without one, or it has more tokens than the ceiling allows.

## Main results

* `Layout.run_limit`: a run under a ceiling stops at the ceiling or is the run without one.
* `Layout.run_of_size_le`: a run that makes no more tokens than the ceiling allows is never stopped.
* `Source.read_ceiling`: sources under a ceiling.
-/

namespace Pine

/-! ### Runs under a ceiling -/

namespace Layout

variable {limit : Nat}

theorem cause_of_overflow? {s : Layout} {e : LexError} (h : overflow? limit s = some e) :
    e.cause = .tooMany limit := by
  unfold overflow? at h
  split at h
  · cases h
    rfl
  · cases h

theorem overflow?_of_size_le {s : Layout} (h : s.tokens.size ≤ limit) :
    overflow? limit s = none := if_neg (by omega)

/-- **A run under a ceiling** stops at the ceiling or is the run without one. -/
theorem run_limit (limit : Nat) (ps : List Piece) (s : Layout) :
    (∃ e, (s.run limit ps).2 = some e ∧ e.cause = .tooMany limit) ∨
      s.run limit ps = s.run 0 ps := by
  induction ps generalizing s with
  | nil => exact .inr rfl
  | cons p ps ih =>
    rw [run, run]
    generalize s.step p ps.head? = r
    obtain ⟨u, e⟩ := r
    cases e with
    | some e => exact .inr rfl
    | none =>
      cases ho : overflow? limit u with
      | some e => exact .inl ⟨e, by dsimp only; rw [ho], cause_of_overflow? ho⟩
      | none =>
        dsimp only
        rw [ho]
        exact ih u

/-- **A run that makes no more tokens than the ceiling allows** is never stopped. -/
theorem run_of_size_le {ps : List Piece} {s : Layout} (h : (s.run 0 ps).1.tokens.size ≤ limit) :
    s.run limit ps = s.run 0 ps := by
  induction ps generalizing s with
  | nil => rfl
  | cons p ps ih =>
    rw [run, run] at *
    generalize s.step p ps.head? = r at *
    obtain ⟨u, e⟩ := r
    cases e with
    | some e => rfl
    | none =>
      change (u.run 0 ps).1.tokens.size ≤ limit at h
      obtain ⟨new, hnew, -⟩ := (Grows.run ps u).tokens
      have hsize : u.tokens.size ≤ (u.run 0 ps).1.tokens.size := by
        rw [← Array.length_toList, ← Array.length_toList, hnew, List.length_append]
        exact Nat.le_add_right _ _
      dsimp only
      rw [overflow?_of_size_le (Nat.le_trans hsize h)]
      exact ih h

/-- The pieces of a source make a run, once the indentation of the first line is read. -/
theorem runAll_eq_run (ps : List Piece) :
    (∃ s qs, ∀ limit, runAll limit ps = run limit qs s) ∨
      ∃ s e, ∀ limit, runAll limit ps = (s, some e) := by
  cases ps with
  | nil => exact .inl ⟨{}, [], fun _ => rfl⟩
  | cons p ps =>
    by_cases hb : p.form = .blank
    · simp only [runAll, if_pos hb]
      generalize (({} : Layout).skip p.text).openLine (width p.text) ps.head? = r
      obtain ⟨s, e⟩ := r
      cases e with
      | some e => exact .inr ⟨s, e, fun _ => rfl⟩
      | none => exact .inl ⟨s, ps, fun _ => rfl⟩
    · simp only [runAll, if_neg hb]
      exact .inl ⟨{}, p :: ps, fun _ => rfl⟩

end Layout

/-! ### Tokens under a ceiling -/

namespace Token

theorem lex_limit (limit : Nat) (source : List Char) :
    (∃ e, (lex limit source).error = some e ∧ e.cause = .tooMany limit) ∨
      lex limit source = lex 0 source := by
  unfold lex
  obtain ⟨s, qs, hrun⟩ | ⟨s, e, hrun⟩ :=
    Layout.runAll_eq_run (Piece.split (Source.normalize source))
  · rw [hrun, hrun]
    exact (Layout.run_limit limit qs s).imp_right fun h => by rw [h]
  · rw [hrun, hrun]
    exact .inr rfl

theorem lex_of_length_le {limit : Nat} {source : List Char}
    (h : (lex 0 source).tokens.length ≤ limit) : lex limit source = lex 0 source := by
  unfold lex at *
  obtain ⟨s, qs, hrun⟩ | ⟨s, e, hrun⟩ :=
    Layout.runAll_eq_run (Piece.split (Source.normalize source))
  · rw [hrun] at h
    rw [hrun, hrun, Layout.run_of_size_le (by simpa using h)]
  · rw [hrun, hrun]

end Token

/-! ### Programs under a ceiling -/

/-- The parser refuses more tokens than the ceiling allows. -/
theorem Program.length_le_of_parse {limits : Limits} (hlimit : 0 < limits.maxTokens)
    {tokens : List Token} (h : (Program.parse limits tokens).errors = []) :
    tokens.length ≤ limits.maxTokens := by
  unfold Program.parse at h
  dsimp only at h
  split at h
  · cases h
  · omega

/-- The parser does not look at a ceiling that is not exceeded. -/
theorem Program.parse_of_length_le {limit : Nat} {tokens : List Token}
    (h : tokens.length ≤ limit) (depth : Nat) :
    Program.parse ⟨limit, depth⟩ tokens = Program.parse ⟨0, depth⟩ tokens := by
  unfold Program.parse
  dsimp only
  rw [if_neg (by omega), if_neg (by omega)]

/-- **A ceiling on the number of tokens only rejects, and rejects exactly the oversized sources.**
Under a ceiling a source fails at the ceiling or has the tokens and the error that it has without
one, and it has them if it has no more tokens than the ceiling allows. It is readable under the
ceiling only then, and then it is read as without a ceiling, whatever the ceiling on nesting. -/
theorem Source.read_ceiling {limit : Nat} (hlimit : 0 < limit) (source : List Char) :
    ((∃ e, (Token.lex limit source).error = some e ∧ e.isTooMany = true) ∨
      Token.lex limit source = Token.lex 0 source) ∧
    ((Token.lex 0 source).error = none → (Token.lex 0 source).tokens.length ≤ limit →
      (Token.lex limit source).error = none) ∧
    ∀ depth,
      ((∃ program, Source.read ⟨limit, depth⟩ source = .ok program) →
        (Token.lex 0 source).error = none ∧ (Token.lex 0 source).tokens.length ≤ limit) ∧
      ((Token.lex 0 source).error = none → (Token.lex 0 source).tokens.length ≤ limit →
        Source.read ⟨limit, depth⟩ source = Source.read ⟨0, depth⟩ source) := by
  refine ⟨?_, fun he hlength => ?_, fun depth => ⟨?_, fun he hlength => ?_⟩⟩
  · refine (Token.lex_limit limit source).imp_left ?_
    rintro ⟨e, he, hcause⟩
    exact ⟨e, he, by rw [LexError.isTooMany, hcause]⟩
  · rw [Token.lex_of_length_le hlength, he]
  · rintro ⟨program, hread⟩
    unfold Source.read at hread
    dsimp only at hread
    cases hlex : (Token.lex limit source).error with
    | some e =>
      rw [hlex] at hread
      cases hread
    | none =>
      rw [hlex] at hread
      rw [Token.lex_of_limit (.inl rfl) hlex]
      have hceiling : 0 < (⟨limit, depth⟩ : Limits).maxTokens := hlimit
      refine ⟨hlex, Program.length_le_of_parse hceiling ?_⟩
      dsimp only at hread
      split at hread
      · assumption
      · cases hread
  · unfold Source.read
    dsimp only
    rw [Token.lex_of_length_le hlength, he]
    dsimp only
    rw [Program.parse_of_length_le hlength]

/-- A source with a block that is closed at its end has eight tokens. A ceiling of eight lets it
pass. Under a ceiling of six the layout reports no error, and the parser refuses the source. -/
theorem Source.read_ceiling_tail :
    let source := "if a\n  b".toList
    0 < 8 ∧ (Token.lex 0 source).error = none ∧ (Token.lex 0 source).tokens.length = 8 ∧
      Source.read ⟨8, 0⟩ source = Source.read ⟨0, 0⟩ source ∧
      0 < 6 ∧ (Token.lex 6 source).error = none ∧
      ¬∃ program, Source.read ⟨6, 0⟩ source = .ok program := by
  intro source
  have he : (Token.lex 0 source).error = none := by with_unfolding_all decide
  have hlength : (Token.lex 0 source).tokens.length = 8 := by with_unfolding_all decide
  refine ⟨by decide, he, hlength, ?_, by decide, by decide +kernel, fun hread => ?_⟩
  · exact ((Source.read_ceiling (by decide) source).2.2 0).2 he (Nat.le_of_eq hlength)
  · have hle := (((Source.read_ceiling (by decide) source).2.2 0).1 hread).2
    rw [hlength] at hle
    exact absurd hle (by decide)

end Pine
