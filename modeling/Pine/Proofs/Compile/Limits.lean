import Pine.Compile
import Pine.Proofs.Grammar.Room

/-!
# Higher ceilings

Ceilings only decide whether a source is compiled, not how. A source that is compiled under some
ceilings on the number of tokens and the depth of nesting has the same tokens and the same program
under higher ones, hence the same script and the same description.

## Main results

* `Token.lex_of_limit`: the tokens of a source are the same under a higher ceiling.
* `Source.read_of_limits`: the program of a source is the same under higher ceilings.
* `compile_of_limits`: what is compiled is compiled in the same way under higher ceilings.
-/

namespace Pine

/-! ### Tokens -/

namespace Layout

variable {limit limit' : Nat} (hl : limit' = 0 ∨ 0 < limit ∧ limit ≤ limit')

include hl in
theorem overflow?_of_limit {s : Layout} (h : overflow? limit s = none) :
    overflow? limit' s = none := by
  unfold overflow? at *
  split at h
  · cases h
  · rw [if_neg (by omega)]

include hl in
/-- A run that ends without an error is the same under a higher ceiling. -/
theorem run_of_limit : (ps : List Piece) → (s : Layout) → (s.run limit ps).2 = none →
    s.run limit' ps = s.run limit ps
  | [], _, _ => rfl
  | p :: ps, s, h => by
    unfold run at *
    split at h
    · cases h
    · next u _ =>
      cases ho : overflow? limit u with
      | some e =>
        rw [ho] at h
        cases h
      | none =>
        rw [ho] at h
        rw [overflow?_of_limit hl ho]
        exact run_of_limit ps u h

include hl in
theorem runAll_of_limit {ps : List Piece} (h : (runAll limit ps).2 = none) :
    runAll limit' ps = runAll limit ps := by
  cases ps with
  | nil => rfl
  | cons p ps =>
    by_cases hb : p.form = .blank
    · simp only [runAll, if_pos hb] at h ⊢
      split at h
      · cases h
      · exact run_of_limit hl ps _ h
    · simp only [runAll, if_neg hb] at h ⊢
      exact run_of_limit hl (p :: ps) {} h

end Layout

/-- **The tokens of a source are the same under a higher ceiling.** -/
theorem Token.lex_of_limit {limit limit' : Nat} (hl : limit' = 0 ∨ 0 < limit ∧ limit ≤ limit')
    {source : List Char} (h : (Token.lex limit source).error = none) :
    Token.lex limit' source = Token.lex limit source := by
  unfold Token.lex at *
  rw [Layout.runAll_of_limit hl h]

/-! ### Programs -/

/-- **The program of a source is the same under higher ceilings.** -/
theorem Source.read_of_limits {limits limits' : Limits} (h : limits.Within limits')
    {source : List Char} {program : Program} (hread : Source.read limits source = .ok program) :
    Source.read limits' source = .ok program := by
  unfold Source.read at *
  dsimp only at *
  cases hlex : (Token.lex limits.maxTokens source).error with
  | some e =>
    rw [hlex] at hread
    cases hread
  | none =>
    rw [hlex] at hread
    rw [Token.lex_of_limit h.tokens hlex, hlex]
    dsimp only at *
    split at hread
    · next he =>
      rw [Program.parse_of_room h he, he]
      exact hread
    · cases hread

/-- **What is compiled is compiled in the same way under higher ceilings.** The script and the
description with its warnings are the same for every set of builtins and all other options. -/
theorem compile_of_limits {options : Options} {limits : Limits}
    (h : options.limits.Within limits) {source : List Char} {compiled : Compiled}
    (hc : compile options source = .ok compiled) :
    compile { options with limits := limits } source = .ok compiled := by
  unfold compile at *
  dsimp only at *
  split at hc
  · next hname =>
    rw [if_pos hname]
    cases hread : Source.read options.limits (Source.normalize source) with
    | error e =>
      rw [hread] at hc
      cases hc
    | ok program =>
      rw [hread] at hc
      rw [Source.read_of_limits h hread]
      exact hc
  · cases hc

/-- A function whose default value takes the last level of nesting that the ceiling allows. -/
theorem compile_of_limits_default :
    let source := "f(a, b = -(1 + 2)) => a + b\nplot(f(close))\n".toList
    ∃ compiled, compile { limits := ⟨27, 3⟩ } source = .ok compiled ∧
      compile { limits := ⟨0, 0⟩ } source = .ok compiled := by
  intro source
  have hok : (compile { limits := ⟨27, 3⟩ } source).toOption.isSome = true := by
    decide +kernel
  cases hc : compile { limits := ⟨27, 3⟩ } source with
  | error e =>
    rw [hc] at hok
    cases hok
  | ok compiled => exact ⟨compiled, rfl, compile_of_limits ⟨.inl rfl, .inl rfl⟩ hc⟩

end Pine
