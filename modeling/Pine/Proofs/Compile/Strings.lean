import Mathlib
import Pine.Proofs.Compile.Names
import Pine.Proofs.Compile.Progress
import Pine.Proofs.Script.Reading

/-!
# Strings in the scripts of programs

The strings of a program reach its script in escaped literals only. So two programs that agree up to
their strings have scripts that agree outside of literals, whatever the strings hold. In particular
strings cannot change which names, calls and statements a script has.
-/

namespace Pine

open Script

namespace Program

/-- The script of a program by itself: the program is keyed, described and lowered. -/
def script (options : Lowering.Options) (d : Diagnostics) (program : Program) :
    Except InternalError Script :=
  let program := program.keyed
  let (indicator, d) := Indicator.ofProgram program d
  (program.lower options indicator d).1

/-- The program is what the grammar yields for the tokens of some source. -/
def IsParsed (program : Program) : Prop :=
  ∃ limits limit source, program = (Program.parse limits (Token.lex limit source).tokens).program

variable {p p' : Program} {options : Lowering.Options}

/-- The imports of a program with other strings have other paths. -/
theorem imports_reword (r : Rewording) (program : Program) :
    imports (rewordStmts r program) = program.imports.map (Prod.map r.string id) := by
  rw [imports, nodes_reword, List.filterMap_map, imports, List.map_filterMap]
  congr 1
  funext n
  cases n with
  | program _ => rfl
  | expr e => rfl
  | stmt s => cases s <;> rfl

/-- Programs that agree up to their strings have the same local names of imports. -/
theorem map_snd_imports_of_reword {r : Rewording} (h : rewordStmts r p = rewordStmts r p') :
    p.imports.map Prod.snd = p'.imports.map Prod.snd := by
  have hsnd (q : Program) : (imports (rewordStmts r q)).map Prod.snd = q.imports.map Prod.snd := by
    rw [imports_reword, List.map_map]
    rfl
  rw [← hsnd p, ← hsnd p', h]

theorem named_of_isParsed (hp : p.IsParsed) (himports : ∀ i ∈ p.imports, isIdentifier i.2 = true) :
    NamedStmts IsBindable p := by
  obtain ⟨limits, limit, source, rfl⟩ := hp
  exact named_imports (named_parse_lex limits limit source) fun i hi _ => himports i hi

theorem complete_of_isParsed (hp : p.IsParsed) : CompleteStmts anyKey p := by
  obtain ⟨limits, limit, source, rfl⟩ := hp
  exact complete_parse limits _

/-- **The script of a program with other strings** agrees with that of the program up to strings,
and both exist if the program is complete. -/
theorem script_reword (hc : CompleteStmts anyKey p) (hn : NamedStmts IsBindable p)
    (ht : ∀ name b, options.registry.find? name = some b → QuoteFree b.target) {r : Rewording}
    (hr : r.KeepsEmpty) (d d' : Diagnostics) :
    ∃ s t, p.script options d = .ok s ∧ script options d' (rewordStmts r p) = .ok t ∧
      s.Twin QuoteFree t := by
  have hkeyed := named_keyed hn
  obtain ⟨s, d₁, hs⟩ := lower_complete (complete_keyed hc) options
    (Indicator.ofProgram p.keyed d).1 (Indicator.ofProgram p.keyed d).2
  obtain ⟨t, d₂, ht, htwin⟩ := lower_reword hkeyed (Indicator.twin_ofProgram hr hkeyed d d')
    (fun _ => Plain.quoteFree) ht r (Indicator.ofProgram (rewordStmts r p.keyed) d').2 hs
  refine ⟨s, t, congrArg Prod.fst hs, ?_, htwin⟩
  unfold script
  rw [keyed_reword]
  exact congrArg Prod.fst ht

/-- **The strings of a program do not change the shape of its script.** Let two programs of sources
agree up to the values of their strings, the paths of their imports and the positions that these
move, where empty values correspond to empty ones; let the local names of the imports be
identifiers, and let no target of a builtin hold a quote. Then both programs have a script, and the
two scripts are the same text without the content of their literals. -/
theorem eraseLiterals_script (hp : p.IsParsed) (hp' : p'.IsParsed)
    (h : rewordStmts .blank p = rewordStmts .blank p')
    (himports : ∀ i ∈ p.imports, isIdentifier i.2 = true)
    (htargets : ∀ name b, options.registry.find? name = some b → QuoteFree b.target)
    (d d' : Diagnostics) :
    ∃ s s', p.script options d = .ok s ∧ p'.script options d' = .ok s' ∧
      eraseLiterals s.text = eraseLiterals s'.text := by
  have himports' : ∀ i ∈ p'.imports, isIdentifier i.2 = true := by
    have hnames : ∀ name ∈ p.imports.map Prod.snd, isIdentifier name = true :=
      List.forall_mem_map.2 himports
    rw [map_snd_imports_of_reword h] at hnames
    exact List.forall_mem_map.1 hnames
  obtain ⟨s, t, hs, ht, htwin⟩ := script_reword (complete_of_isParsed hp)
    (named_of_isParsed hp himports) htargets Rewording.keepsEmpty_blank d {}
  obtain ⟨s', t', hs', ht', htwin'⟩ := script_reword (complete_of_isParsed hp')
    (named_of_isParsed hp' himports') htargets Rewording.keepsEmpty_blank d' {}
  -- both scripts agree with that of the program in which all strings are the same
  rw [h, ht'] at ht
  cases ht
  refine ⟨s, s', hs, hs', eraseLiterals_text ?_ ?_ ?_ ?_ htwin.body.spelled htwin'.body.spelled⟩
  · exact htwin.version.symm.trans htwin'.version
  · exact htwin.title.symm.trans htwin'.title
  · exact htwin.functionName.symm.trans htwin'.functionName
  · exact htwin.body.hollow.symm.trans htwin'.body.hollow

/-- Libraries from different paths, and a string that is longer and tries to end the literal, the
call and the line. -/
theorem eraseLiterals_script_quotes :
    let source := "import \"x\" as q\nq.f(\"b\", a)\n".toList
    let source' := "import \"y/z\" as q\nq.f(\"\\n\\\"); g(\", a)\n".toList
    let p := (Program.parse .standard (Token.lex 0 source).tokens).program
    let p' := (Program.parse .standard (Token.lex 0 source').tokens).program
    let entries : List (String × Builtin) := [("q.f", ⟨"ctx.f", true, true, 2⟩)]
    let options : Lowering.Options := { registry := ⟨(List.lookup · entries), fun _ => none⟩ }
    p.IsParsed ∧ p'.IsParsed ∧ rewordStmts .blank p = rewordStmts .blank p' ∧
      (∀ i ∈ p.imports, isIdentifier i.2 = true) ∧
      (∀ name b, options.registry.find? name = some b → QuoteFree b.target) ∧
      ∃ s s', p.script options {} = .ok s ∧ p'.script options {} = .ok s' ∧
        eraseLiterals s.text = eraseLiterals s'.text := by
  intro source source' p p' entries options
  have hp : p.IsParsed := ⟨_, _, _, rfl⟩
  have hp' : p'.IsParsed := ⟨_, _, _, rfl⟩
  have h : rewordStmts .blank p = rewordStmts .blank p' := by
    unfold p p' source source'
    rw [parse_eq_program, parse_eq_program]
    cbv
  have himports : ∀ i ∈ p.imports, isIdentifier i.2 = true := by decide +kernel
  have htargets : ∀ name b, options.registry.find? name = some b → QuoteFree b.target := by
    have hall : ∀ e ∈ entries, QuoteFree e.2.target := by decide
    exact fun name b hb => hall (name, b) (mem_of_lookup hb)
  exact ⟨hp, hp', h, himports, htargets, eraseLiterals_script hp hp' h himports htargets {} {}⟩

end Program

end Pine
