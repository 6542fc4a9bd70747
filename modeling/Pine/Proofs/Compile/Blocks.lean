import Pine.Proofs.Compile.Names
import Pine.Proofs.Indicator.History
import Pine.Proofs.Lowering.Blocks
import Pine.Proofs.Script.Keys

/-!
# Scripts declare names once

No block of a compiled script declares a name twice by `let`, `const` or `class`, with one
exception: an import or a type is declared even if its name is taken, and so are the two names in
the head of a loop. Apart from the names that clash in this way, a script is free of repeated
declarations, whatever the source declares: names that are declared again, price series, series of
undeclared names, persistent variables of one name in different blocks, loops and switches.
-/

namespace Pine

open Script List

variable {C : String → Prop}

/-! ### Names of cells -/

namespace Script

theorem dollar_notMem_safeName {name : String} (h : isNameShaped name = true) :
    '$' ∉ (safeName name).toList := by
  have hname : '$' ∉ name.toList := notMem_of_isNameShaped h (by decide)
  unfold safeName
  split
  · exact hname
  · rw [String.toList_append, mem_append, not_or]
    exact ⟨by decide, hname⟩

/-- The text in the name of a cell, for the number of the cell among those of a name. -/
def cellText (name : String) (n : Nat) : String := if n = 1 then name else name ++ "$" ++ toString n

/-- The text of a cell tells the name, if there is no mark in it, and the number. -/
theorem cellText_inj {a b : String} (ha : '$' ∉ a.toList) (hb : '$' ∉ b.toList) {m n : Nat}
    (h : cellText a m = cellText b n) : a = b ∧ m = n :=
  numbered_inj (by decide) (not_isNumbered_of_notMem ha) (not_isNumbered_of_notMem hb) h

end Script

namespace Program

theorem cellNames_cons (earlier : List String) (d : Persistent) (ds : List Persistent) :
    cellNames earlier (d :: ds) =
      cellName (cellText (safeName d.name) (earlier.count (safeName d.name) + 1)) ::
        cellNames (safeName d.name :: earlier) ds := by
  rw [cellNames, cellText]
  split
  · rfl
  · rw [cellName, cellName, String.append_assoc, String.append_assoc, String.append_assoc]

/-- Cells of a name are numbered from the number of those that it had before. -/
theorem exists_of_mem_cellNames {c : String} : {ds : List Persistent} → {earlier : List String} →
    c ∈ cellNames earlier ds → ∃ d ∈ ds, ∃ n, earlier.count (safeName d.name) < n ∧
      c = cellName (cellText (safeName d.name) n)
  | [], _, h => nomatch h
  | d :: ds, earlier, h => by
    rw [cellNames_cons, mem_cons] at h
    obtain rfl | h := h
    · exact ⟨d, mem_cons_self .., _, Nat.lt_succ_self _, rfl⟩
    · obtain ⟨d', hd', n, hn, rfl⟩ := exists_of_mem_cellNames h
      have hcount := count_le_count_cons (a := safeName d'.name) (b := safeName d.name)
        (l := earlier)
      exact ⟨d', mem_cons_of_mem _ hd', n, Nat.lt_of_le_of_lt hcount hn, rfl⟩

/-- **Different persistent declarations have different cells.** -/
theorem nodup_cellNames : (ds : List Persistent) → (∀ d ∈ ds, isNameShaped d.name = true) →
    (earlier : List String) → (cellNames earlier ds).Nodup
  | [], _, _ => nodup_nil
  | d :: ds, h, earlier => by
    obtain ⟨hd, hds⟩ := forall_mem_cons.1 h
    rw [cellNames_cons]
    refine nodup_cons.2 ⟨fun hmem => ?_, nodup_cellNames ds hds _⟩
    obtain ⟨d', hd', n, hn, heq⟩ := exists_of_mem_cellNames hmem
    obtain ⟨hname, hnumber⟩ := cellText_inj (dollar_notMem_safeName hd)
      (dollar_notMem_safeName (hds d' hd')) ((String.append_right_inj _).1 heq)
    rw [← hname, count_cons_self, hnumber] at hn
    exact Nat.lt_irrefl n hn

/-! ### Programs -/

theorem once_blocks_lower {L : String → String → Prop} {program : Program}
    (hnamed : NamedStmts L program) (hdistinct : program.Distinct C) {options : Lowering.Options}
    {indicator : Indicator} (hsources : indicator.sources.Nodup)
    (hfollow : ∀ x ∈ indicator.sources, ∀ q ∈ introducedNames program,
      MayFollow C (.library, x) q)
    {d d' : Diagnostics} {script : Script}
    (h : program.lower options indicator d = (.ok script, d')) : Once C script.blocks := by
  unfold lower at h
  dsimp only at h
  split at h
  · next body s hbody =>
    cases h
    change Lowering.OnceBlock C body
    refine Lower.Ensures.apply
      (Lowering.ensures_script_once hdistinct hsources hfollow ?_ ?_ _) hbody
    · exact nodup_cellNames _ (isNameShaped_persistents hnamed) []
    · intro c hc
      obtain ⟨_, _, _, _, rfl⟩ := exists_of_mem_cellNames hc
      exact ⟨_, rfl⟩
  · cases h

theorem once_blocks_compiled {L : String → String → Prop} {program : Program}
    (hnamed : NamedStmts L program) {options : Options} {version : Option Nat} {compiled : Compiled}
    (hclashes : ∀ x ∈ program.clashes compiled.indicator.sources, C x)
    (h : program.compile options version = .ok compiled) : Once C compiled.script.blocks := by
  have hdistinct := distinct_of_clashes hclashes
  have hpruned : NamedStmts L (if options.prune then program.prune else program) ∧
      Distinct C (if options.prune then program.prune else program) ∧
      introducedNames (if options.prune then program.prune else program) =
        introducedNames program := by
    split
    · exact ⟨named_prune hnamed, distinct_prune hdistinct, introducedNames_prune program⟩
    · exact ⟨hnamed, hdistinct, rfl⟩
  obtain ⟨hnamed', hdistinct', hnames⟩ := hpruned
  unfold Program.compile at h
  dsimp only at h
  split at h
  · next script d hs =>
    cases h
    refine once_blocks_lower (named_keyed hnamed') (distinct_keyed hdistinct') ?_ ?_ hs
    · exact Indicator.nodup_sources_ofProgram
    · rw [keyed, introducedNames_keyed, hnames]
      exact mayFollow_of_clashes hclashes
  · cases h

end Program

/-! ### Sources -/

/-- **No block of a script declares a name twice, except for names that clash.** Let a source be
compiled. If a block of its script has more than one declaration of a name by `let`, `const` or
`class`, be it the body of the entry function, of a function or of a loop, a branch, a case or a
block with a value, then the name comes from a name that clashes in the source: an import or a type
takes it although its block introduces it elsewhere, other than by variables after an import; or a
loop binds it both as the index and as the item; or an import or a type at the top level takes the
name of a price series that the script reads. -/
theorem clashes_of_redeclared {options : Options} {source : List Char} {program : Program}
    {compiled : Compiled}
    (hread : Source.read options.limits (Source.normalize source) = .ok program)
    (h : compile options source = .ok compiled) :
    ∀ names ∈ compiled.script.blocks, ∀ name, 1 < names.count name →
      ∃ x ∈ program.clashes compiled.indicator.sources, name = safeName x := by
  intro names hnames name hcount
  unfold compile at h
  split at h
  · dsimp only at h
    rw [hread] at h
    have honce := Program.once_blocks_compiled (Source.named_read hread) (fun _ hx => hx) h
    exact exists_of_one_lt_count (honce names hnames) hcount
  · cases h

/-- A name is declared again, in a tuple and in an inner block, a series is made for a name that is
never declared, and two variables persist under one name. Repeated are only a variable and a price
series whose names are imported, and a name that a loop binds twice. -/
theorem clashes_of_redeclared_mixed :
    let source := ("x = late[2]\nx = high\n[x, y] = f(x)\nvar n = 0\nif x > 1\n    var n = 1\n" ++
      "    x = n\nfor [i, i] in y\n    x := i\nimport \"b/y/1\"\nimport \"c/high/1\"\n").toList
    ∃ program compiled, Source.read .standard (Source.normalize source) = .ok program ∧
      compile {} source = .ok compiled ∧
      compiled.script.blocks = [["high", "_series_late", "_var_n", "_var_n$2", "x", "y", "n",
        "_loop1", "y", "high"], ["n", "x"], ["i", "i"], []] ∧
      ∀ names ∈ compiled.script.blocks, ∀ name, 1 < names.count name →
        ∃ x ∈ ["high", "y", "i"], name = safeName x := by
  intro source
  have hboth : (Source.read .standard (Source.normalize source)).toOption.bind (fun program =>
      (compile {} source).toOption.map fun compiled =>
        (program.clashes compiled.indicator.sources, compiled.script.blocks)) =
      some (["high", "y", "i"], [["high", "_series_late", "_var_n", "_var_n$2", "x", "y", "n",
        "_loop1", "y", "high"], ["n", "x"], ["i", "i"], []]) := by
    simp only [source, String.toList_append]
    repeat rw [String.toList_ofList]
    decide +kernel
  have hok {ε α : Type} {x : Except ε α} {a : α} (h : x.toOption = some a) : x = .ok a := by
    cases x with
    | error => cases h
    | ok => exact congrArg Except.ok (Option.some.inj h)
  obtain ⟨program, hread, hrest⟩ := Option.bind_eq_some_iff.1 hboth
  obtain ⟨compiled, h, hpair⟩ := Option.map_eq_some_iff.1 hrest
  obtain ⟨hclashes, hblocks⟩ := Prod.mk.inj hpair
  have hnames := @clashes_of_redeclared {} source program compiled (hok hread) (hok h)
  rw [hclashes] at hnames
  exact ⟨program, compiled, hok hread, hok h, hblocks, hnames⟩

end Pine
