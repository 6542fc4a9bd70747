import Pine.Proofs.Compile.Strings

/-!
# Brackets in the scripts of programs

The blocks of a script are opened and closed on different lines, by choices, loops, switches and
classes, and by blocks inside of expressions. Whatever the program, each of them is closed, and in
the right order: the names of a program are identifiers and its strings are escaped, so neither can
bring in a bracket, and the targets of builtins bring in only what they close themselves.
-/

namespace Pine

open Script

namespace Program

variable {p : Program} {options : Lowering.Options}

/-- **The brackets of a script are nested.** Let a program be that of a source, the local names of
its imports and the name of the entry function be identifiers, and the targets of builtins be nested
and without quotes. Then the program has a script, in which outside of double-quoted literals every
bracket is closed by its own kind, in order, and none is left open. -/
theorem nested_lower (hp : p.IsParsed) (himports : ∀ i ∈ p.imports, isIdentifier i.2 = true)
    (htargets : ∀ name b, options.registry.find? name = some b →
      QuoteFree b.target ∧ Nested b.target)
    (hname : options.functionName = "" ∨ isIdentifier options.functionName = true)
    (version : Nat) (d d' : Diagnostics) :
    ∃ s d₁, p.keyed.lower options { (Indicator.ofProgram p.keyed d).1 with version } d' =
      (.ok s, d₁) ∧ Nested s.text := by
  have hn := named_keyed (named_of_isParsed hp himports)
  obtain ⟨s, d₁, hs⟩ := lower_complete (complete_keyed (complete_of_isParsed hp)) options
    { (Indicator.ofProgram p.keyed d).1 with version } d'
  have hplain (name : String) (b : Builtin) (hb : options.registry.find? name = some b) :
      Plain b.target := ⟨(htargets name b hb).1, (htargets name b hb).2⟩
  have hbody : Spelled Plain (stmtLeaves s.body) :=
    spelled_lower hn (fun _ => id) hplain ((Indicator.twin_self hn d).withVersion version) hs
  have hfunction : isIdentifier s.functionName = true := by
    rw [functionName_lower hs]
    split
    · decide
    · next hempty => exact hname.resolve_left hempty
  have hctx : isIdentifier "ctx" = true := by decide
  exact ⟨s, d₁, hs, nested_text (spelled_cons.2 ⟨hfunction, spelled_cons.2 ⟨hctx, hbody⟩⟩)⟩

/-- Choices, both kinds of switches, a value block, loops, a class, and brackets in strings. -/
theorem nested_lower_blocks :
    let source := ("indicator(\"a (b]\")\nimport \"x/\x7b/1\" as q\ntype P\n    float y = 1\n" ++
      "f(a) =>\n    if a > 1\n        a\n    else if a < 0\n        -a\n    else\n        0\n" ++
      "var v = switch close\n    1 => q.f(\"\\\")\")\n    => [1, 2]\n" ++
      "for [i, x] in array.from(1, 2)\n    while x > i\n        v := (f(x))[1]\n").toList
    let p := (Program.parse .standard (Token.lex 0 source).tokens).program
    let entries : List (String × Builtin) :=
      [("array.from", ⟨"((...a) => [...a])", true, true, 2⟩)]
    let options : Lowering.Options := { registry := ⟨(List.lookup · entries), fun _ => none⟩ }
    p.IsParsed ∧ (∀ i ∈ p.imports, isIdentifier i.2 = true) ∧
      (∀ name b, options.registry.find? name = some b → QuoteFree b.target ∧ Nested b.target) ∧
      ∃ s d₁, p.keyed.lower options { (Indicator.ofProgram p.keyed {}).1 with version := 5 } {} =
        (.ok s, d₁) ∧ Nested s.text := by
  intro source p entries options
  have hp : p.IsParsed := ⟨_, _, _, rfl⟩
  have himports : ∀ i ∈ p.imports, isIdentifier i.2 = true := by
    simp only [p, source, String.toList_append]
    repeat rw [String.toList_ofList]
    decide +kernel
  have htargets : ∀ name b, options.registry.find? name = some b →
      QuoteFree b.target ∧ Nested b.target := by
    have hall : ∀ e ∈ entries, QuoteFree e.2.target ∧ Nested e.2.target := by
      decide
    exact fun name b hb => hall (name, b) (mem_of_lookup hb)
  exact ⟨hp, himports, htargets, nested_lower hp himports htargets (.inl rfl) 5 {} {}⟩

end Program

end Pine
