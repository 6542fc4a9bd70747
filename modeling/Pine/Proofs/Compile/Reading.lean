import Pine.Compile
import Pine.Proofs.Source.Normalize

/-!
# Reading and compiling agree

A source is normalized once when it is only read, and twice when it is compiled. Line ends do not
tell the difference, but a source that starts with exactly two byte-order marks does: reading stops
at the second mark, and compiling drops it. On every other source the two stages see the same
tokens or the same error.

## Main results

* `Source.read_normalize`: normalizing a source before it is read changes nothing, unless the source
  starts with exactly two byte-order marks.
* `Source.read_twoMarks`: what happens to the sources that do.
* `compile_reading_iff`: compiling fails at the reading stage if and only if reading fails, and at
  the same place.
-/

namespace Pine

namespace Source

/-! ### Marks in front of a source -/

theorem unifyLineEnds_mark (cs : List Char) :
    unifyLineEnds (mark :: cs) = mark :: unifyLineEnds cs := by
  have hcr : mark ≠ '\r' := by decide
  rw [unifyLineEnds]
  · exact fun _ h => absurd h hcr
  · exact hcr

theorem head?_of_unifyLineEnds {cs : List Char} (h : (unifyLineEnds cs).head? = some mark) :
    cs.head? = some mark := by
  unfold unifyLineEnds at h
  split at h
  · cases h
  · cases h
  · exact h
  · cases h

/-- Normalizing leaves a mark in front only of a source that starts with two. -/
theorem exists_of_head?_normalize {source : List Char}
    (h : (normalize source).head? = some mark) : ∃ rest, source = mark :: mark :: rest := by
  have hd := head?_of_unifyLineEnds h
  match source with
  | [] => cases hd
  | c :: cs =>
    by_cases hc : c = mark
    · subst hc
      rw [dropMark, if_pos rfl] at hd
      obtain ⟨rest, rfl⟩ := List.head?_eq_some_iff.1 hd
      exact ⟨rest, rfl⟩
    · rw [dropMark_eq_self (by simpa using hc)] at hd
      exact absurd (Option.some.inj hd) hc

/-- A source with a mark in front of a text is read as that text. -/
theorem normalize_mark (cs : List Char) : normalize (mark :: cs) = unifyLineEnds cs := by
  rw [normalize, dropMark, if_pos rfl]

end Source

open Source

/-- A source that starts with two marks has no tokens: the second one is a stray character. -/
theorem Token.lex_twoMarks (limit : Nat) (rest : List Char) :
    Token.lex limit (mark :: mark :: rest) = ⟨[], some ⟨.fault (.stray mark), 1, 1⟩⟩ := by
  unfold Token.lex
  rw [normalize_mark, unifyLineEnds_mark, Piece.split, Piece.classify_mark]
  simp [Layout.runAll, Layout.run, Layout.step, Place.first]

namespace Source

theorem read_of_lex_eq {limits : Limits} {source source' : List Char}
    (h : Token.lex limits.maxTokens source = Token.lex limits.maxTokens source') :
    read limits source = read limits source' := by
  unfold read
  rw [h]

/-- **Normalizing a source before it is read changes nothing**, unless the source starts with
exactly two byte-order marks. -/
theorem read_normalize (limits : Limits) {source : List Char}
    (h : ∀ rest, source = mark :: mark :: rest → rest.head? = some mark) :
    read limits (normalize source) = read limits source := by
  by_cases hm : (normalize source).head? = some mark
  · obtain ⟨rest, rfl⟩ := exists_of_head?_normalize hm
    obtain ⟨cs, rfl⟩ := List.head?_eq_some_iff.1 (h rest rfl)
    rw [normalize_mark, unifyLineEnds_mark, unifyLineEnds_mark]
    exact read_of_lex_eq ((Token.lex_twoMarks _ _).trans (Token.lex_twoMarks _ _).symm)
  · refine read_of_lex_eq ?_
    have hn := normalize_eq_self hm (cr_notMem_unifyLineEnds _)
    rw [Token.lex, Token.lex, hn]

/-- A source that starts with exactly two byte-order marks is not readable, but the text after the
marks is what is read of it once it has been normalized. -/
theorem read_twoMarks (limits : Limits) {rest : List Char} (h : rest.head? ≠ some mark) :
    read limits (mark :: mark :: rest) = .error (.lex ⟨.fault (.stray mark), 1, 1⟩) ∧
      read limits (normalize (mark :: mark :: rest)) = read limits rest := by
  refine ⟨?_, read_of_lex_eq ?_⟩
  · unfold read
    rw [Token.lex_twoMarks]
  · have hcr : unifyLineEnds (unifyLineEnds rest) = unifyLineEnds rest :=
      unifyLineEnds_eq_self (cr_notMem_unifyLineEnds rest)
    have hrest : normalize rest = unifyLineEnds rest := by rw [normalize, dropMark_eq_self h]
    rw [normalize_mark, unifyLineEnds_mark, Token.lex, Token.lex, normalize_mark, hcr, hrest]

end Source

/-! ### Compiling -/

/-- **Compiling fails at the reading stage if and only if reading fails, and at the same place**,
for every source that does not start with exactly two byte-order marks. -/
theorem compile_reading_iff (options : Options) (source : List Char)
    (hname : Script.isFunctionName options.functionName = true)
    (hmarks : ∀ rest, source = mark :: mark :: rest → rest.head? = some mark) :
    ((∃ e, Source.read options.limits source = .error e) ↔
        ∃ e, compile options source = .error (.reading e)) ∧
      ∀ e f, Source.read options.limits source = .error e → compile options source = .error f →
        f.line = e.line ∧ f.column = e.column := by
  have hread := Source.read_normalize options.limits hmarks
  -- an error of reading is handed on, and later stages fail in another way
  have herror (e : ReadError) (h : Source.read options.limits source = .error e) :
      compile options source = .error (.reading e) := by
    unfold compile
    rw [if_pos hname]
    dsimp only
    rw [hread, h]
  refine ⟨⟨fun ⟨e, h⟩ => ⟨e, herror e h⟩, fun ⟨e, h⟩ => ?_⟩, fun e f h hf => ?_⟩
  · cases hr : Source.read options.limits source with
    | error e' => exact ⟨e', rfl⟩
    | ok program =>
      unfold compile at h
      rw [if_pos hname] at h
      dsimp only at h
      rw [hread, hr] at h
      dsimp only at h
      unfold Program.compile at h
      dsimp only at h
      split at h
      · cases h
      · cases h
  · rw [herror e h] at hf
    cases hf
    exact ⟨rfl, rfl⟩

/-- An open bracket in a source with carriage returns and one mark in front. -/
theorem compile_reading_iff_bracket :
    let source := mark :: "x = 1\r\ny = (x +\r\n".toList
    Script.isFunctionName "main" = true ∧
      (∀ rest, source = mark :: mark :: rest → rest.head? = some mark) ∧
      ∃ e f, Source.read .standard source = .error e ∧ compile {} source = .error f ∧
        e.line = 3 ∧ f.line = e.line ∧ f.column = e.column := by
  intro source
  have hname : Script.isFunctionName "main" = true := by decide
  have hmarks : ∀ rest, source = mark :: mark :: rest → rest.head? = some mark := by
    intro rest h
    exact absurd (List.cons.inj (List.cons.inj h).2).1 (by decide)
  have hline : (Source.read .standard source).casesOn (motive := fun _ => Int)
      (fun e => e.line) (fun _ => 0) = 3 := by
    decide +kernel
  have hagree := compile_reading_iff {} source hname hmarks
  cases hr : Source.read .standard source with
  | ok program =>
    rw [hr] at hline
    cases hline
  | error e =>
    rw [hr] at hline
    obtain ⟨f, hf⟩ := hagree.1.1 ⟨e, hr⟩
    exact ⟨hname, hmarks, e, .reading f, rfl, hf, hline, hagree.2 e (.reading f) hr hf⟩

end Pine
