import Pine.Compile
import Pine.Proofs.Grammar.Sound
import Pine.Proofs.Lowering.Reworded

/-!
# Names in the scripts of sources

The words of a source are identifiers, the grammar puts only words where a tree has a name, and
lowering makes identifiers of identifiers. So a script binds identifiers only, with one exception:
an import that gives no local name takes it from its path, which is a string and can hold anything.

## Main results

* `Source.named_read`: the program of a readable source is well-named.
* `Program.spelled_lower`: the leaves of the script of a well-named program are well-spelled.
* `isIdentifier_boundNames_compile`: the names that the script of a source binds.
-/

namespace Pine

open Script

/-! ### Programs of sources -/

/-- The program that the tokens of a source form is well-named. -/
theorem Program.named_parse_lex (limits : Limits) (limit : Nat) (source : List Char) :
    NamedStmts Grammar.IsLocalName (Program.parse limits (Token.lex limit source).tokens).program :=
  Program.named_parse limits (Token.spelled_lex limit source)

/-- The program of a readable source is well-named. -/
theorem Source.named_read {limits : Limits} {source : List Char} {program : Program}
    (h : Source.read limits source = .ok program) : NamedStmts Grammar.IsLocalName program := by
  unfold Source.read at h
  dsimp only at h
  split at h
  · cases h
  · split at h
    · cases h
      exact Program.named_parse_lex limits _ source
    · cases h

/-- The paths and local names of all imports of a program. -/
def Program.imports (program : Program) : List (String × String) :=
  program.nodes.filterMap fun n =>
    match n with
    | .stmt (.importLib _ path localName) => some (path, localName)
    | _ => none

/-- A well-named program is so for any property that all its imports have. -/
theorem Program.named_imports {L M : String → String → Prop} {program : Program}
    (h : NamedStmts L program)
    (himports : ∀ i ∈ program.imports, L i.1 i.2 → M i.1 i.2) : NamedStmts M program := by
  refine Each.mono h fun n hn hnamed => hnamed.mono fun p path localName he hl => ?_
  exact himports (path, localName) (List.mem_filterMap.2 ⟨n, hn, by rw [he]⟩) hl

theorem Program.imports_of_named {L : String → String → Prop} {program : Program}
    (h : NamedStmts L program) : ∀ i ∈ program.imports, L i.1 i.2 := by
  intro i hi
  obtain ⟨n, hn, hi⟩ := List.mem_filterMap.1 hi
  have hnamed := h n hn
  split at hi
  · cases hi
    exact hnamed
  · cases hi

/-! ### Scripts -/

/-- The name of the entry function is that of the options. -/
theorem Program.functionName_lower {program : Program} {options : Lowering.Options}
    {indicator : Indicator} {d d' : Diagnostics} {s : Script}
    (h : program.lower options indicator d = (.ok s, d')) :
    s.functionName = if options.functionName = "" then Lowering.standardFunctionName
      else options.functionName := by
  unfold lower at h
  dsimp only at h
  split at h
  · cases h
    rfl
  · cases h

/-- **The leaves of the script of a well-named program are well-spelled**, with any property for the
leaves that are no names which plain texts and the targets of builtins have. The script is that of
the program with its own strings, so it can be compared with itself. -/
theorem Program.spelled_lower {A : String → Prop} {program : Program}
    (hn : NamedStmts IsBindable program) {options : Lowering.Options}
    (hplain : ∀ text, Plain text → A text)
    (ht : ∀ name b, options.registry.find? name = some b → A b.target)
    {i : Indicator} (hi : i.Twin i) {d d' : Diagnostics} {s : Script}
    (h : program.lower options i d = (.ok s, d')) : Spelled A (stmtLeaves s.body) := by
  obtain ⟨s', d₁, -, hs⟩ := lower_reword hn hi hplain ht .same d h
  exact hs.body.spelled

/-- The description of a well-named program has identifiers for the names that are read. -/
theorem Indicator.twin_self {program : Program} (hn : NamedStmts IsBindable program)
    (d : Diagnostics) :
    (Indicator.ofProgram program d).1.Twin (Indicator.ofProgram program d).1 := by
  have htwin := Indicator.twin_ofProgram Rewording.keepsEmpty_same hn d d
  rwa [rewordStmts_same] at htwin

theorem Program.spelled_compile {program : Program} (hn : NamedStmts IsBindable program)
    {options : Options} (hname : isFunctionName options.functionName = true) {version : Option Nat}
    {compiled : Compiled} (h : program.compile options version = .ok compiled) :
    Spelled (fun _ => True) compiled.script.leaves := by
  have hpruned : NamedStmts IsBindable (if options.prune then program.prune else program) := by
    split
    · exact Program.named_prune hn
    · exact hn
  unfold Program.compile at h
  dsimp only at h
  split at h
  · next script d hs =>
    cases h
    have hkeyed := Program.named_keyed hpruned
    have hself := (Indicator.twin_self hkeyed (versionDiagnostics version)).withVersion
      (version.getD 0)
    have hbody := spelled_lower hkeyed (fun _ _ => trivial) (fun _ _ _ => trivial) hself hs
    have hfunction : isIdentifier script.functionName = true := by
      rw [functionName_lower hs]
      split
      · decide
      · exact isIdentifier_of_isNameShaped (Bool.and_eq_true_iff.1 hname).1
    have hctx : isIdentifier "ctx" = true := by decide
    exact spelled_cons.2 ⟨hfunction, spelled_cons.2 ⟨hctx, hbody⟩⟩
  · cases h

/-! ### Sources -/

/-- **A script binds identifiers only**, unless an import takes a local name from its path. For
every source that compiles: if the names that imports take from their paths are identifiers, then
every name that the script binds is one, and so is the local name of every import. -/
theorem isIdentifier_boundNames_compile {options : Options} {source : List Char}
    {program : Program} {compiled : Compiled}
    (hread : Source.read options.limits (Source.normalize source) = .ok program)
    (hdefault : ∀ i ∈ program.imports, i.2 = Grammar.defaultLocalName i.1 →
      isIdentifier i.2 = true)
    (h : compile options source = .ok compiled) :
    (∀ name ∈ compiled.script.boundNames, isIdentifier name = true) ∧
      ∀ i ∈ program.imports, isIdentifier i.2 = true := by
  have hn : NamedStmts IsBindable program :=
    Program.named_imports (Source.named_read hread) fun i hi hl => hl.elim id (hdefault i hi)
  refine ⟨?_, Program.imports_of_named hn⟩
  unfold compile at h
  split at h
  · next hname =>
    dsimp only at h
    rw [hread] at h
    exact fun name hmem =>
      isIdentifier_of_mem_boundNames (Program.spelled_compile hn hname h) hmem
  · cases h

/-- An import without a local name, next to names of many kinds. -/
theorem isIdentifier_boundNames_compile_tools :
    let source := ("import \"ann/tools/2\"\nvar default = 0\nfor [i, x] in array.from(1, 2)\n" ++
      "    default += x[1]\n[lo, hi] = ta.range(close, 3)\n" ++
      "f(a) =>\n    a + 1\nplot(f(lo))\n").toList
    ∃ program compiled, Source.read .standard (Source.normalize source) = .ok program ∧
      program.imports = [("ann/tools/2", "tools")] ∧ compile {} source = .ok compiled ∧
      (∀ name ∈ compiled.script.boundNames, isIdentifier name = true) ∧
      ∀ i ∈ program.imports, isIdentifier i.2 = true := by
  intro source
  have himports : (Source.read .standard (Source.normalize source)).toOption.map Program.imports =
      some [("ann/tools/2", "tools")] := by
    simp only [source, String.toList_append]
    repeat rw [String.toList_ofList]
    decide +kernel
  have hcompiled : (compile {} source).toBool = true := by
    simp only [source, String.toList_append]
    repeat rw [String.toList_ofList]
    decide +kernel
  match hread : Source.read .standard (Source.normalize source), h : compile {} source with
  | .ok program, .ok compiled =>
    rw [hread] at himports
    replace himports : program.imports = [("ann/tools/2", "tools")] := Option.some.inj himports
    have hdefault : ∀ i ∈ program.imports, i.2 = Grammar.defaultLocalName i.1 →
        isIdentifier i.2 = true := by
      rw [himports]
      decide
    exact ⟨program, compiled, rfl, himports, rfl, isIdentifier_boundNames_compile hread hdefault h⟩
  | .error _, _ =>
    rw [hread] at himports
    cases himports
  | _, .error _ =>
    rw [h] at hcompiled
    cases hcompiled

end Pine
