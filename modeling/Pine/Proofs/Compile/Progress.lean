import Pine.Compile
import Pine.Proofs.Grammar.Sound
import Pine.Proofs.Lowering.Progress

/-!
# Readable sources compile

Reading is the only stage of compiling that rejects a source. What the grammar yields is complete,
pruning and keying keep it so, and a complete program has a script, because every persistent
declaration that lowering meets was found when the cells were laid out.
-/

namespace Pine

/-- **A complete program compiles**, in every language version and with every set of options. -/
theorem Program.compile_complete {program : Program} (h : CompleteStmts anyKey program)
    (options : Options) (version : Option Nat) :
    ∃ compiled, program.compile options version = .ok compiled := by
  have hpruned : CompleteStmts anyKey (if options.prune then program.prune else program) := by
    split
    · exact Program.complete_prune h
    · exact h
  unfold Program.compile
  dsimp only
  obtain ⟨script, d, hs⟩ := Program.lower_complete (Program.complete_keyed hpruned)
    ⟨options.registry, options.loopLimit, options.functionName⟩ _ _
  rw [hs]
  exact ⟨_, rfl⟩

/-- The program of a readable source is complete. -/
theorem Source.complete_read {limits : Limits} {source : List Char} {program : Program}
    (h : Source.read limits source = .ok program) : CompleteStmts anyKey program := by
  unfold Source.read at h
  dsimp only at h
  split at h
  · cases h
  · split at h
    · cases h
      exact Program.complete_parse limits _
    · cases h

/-- **A readable source compiles.** If the entry function can have its name, the source has tokens
within the limits and the tokens form a program without errors, then the source has a script, with
every set of builtins and with or without the functions that are never called. -/
theorem compile_of_readable (options : Options) (source : List Char)
    (hname : Script.isFunctionName options.functionName = true)
    (hlex : (Token.lex options.limits.maxTokens source).error = none)
    (hparse : (Program.parse options.limits
      (Token.lex options.limits.maxTokens source).tokens).errors = []) :
    ∃ compiled, compile options source = .ok compiled := by
  have hread : ∃ program, Source.read options.limits (Source.normalize source) = .ok program := by
    unfold Source.read
    rw [Token.lex_normalize hlex]
    dsimp only
    rw [hlex]
    dsimp only
    rw [hparse]
    exact ⟨_, rfl⟩
  obtain ⟨program, hread⟩ := hread
  unfold compile
  rw [if_pos hname]
  dsimp only
  rw [hread]
  exact Program.compile_complete (Source.complete_read hread) options _

set_option maxRecDepth 8000 in
/-- A persistent variable in an arm of a switch, inside a function, has a cell. -/
theorem compile_of_readable_switch :
    let source := ("f(a) =>\n    b = switch\n        a > 1 =>\n            var n = 0\n" ++
      "            n += 1\n        => -a\n    b\nx = f(close)\n").toList
    Script.isFunctionName "main" = true ∧ (Token.lex 100000 source).error = none ∧
      (Program.parse .standard (Token.lex 100000 source).tokens).errors = [] ∧
      ∃ compiled, compile {} source = .ok compiled := by
  intro source
  have hname : Script.isFunctionName "main" = true := by decide
  have hsource : source = _ :=
    String.toList_append.trans (congrArg₂ (· ++ ·) String.toList_ofList String.toList_ofList)
  have hlex : (Token.lex 100000 source).error = none := by
    rw [hsource]
    decide +kernel
  have hparse : (Program.parse .standard (Token.lex 100000 source).tokens).errors = [] := by
    rw [hsource]
    decide +kernel
  exact ⟨hname, hlex, hparse, compile_of_readable {} source hname hlex hparse⟩

end Pine
