import Pine.Proofs.Compile.Blocks
import Pine.Proofs.Compile.Progress
import Pine.Proofs.Lowering.Keys

/-!
# Keys and cells are never used twice

The series of a name, the series of other names, and the cells of persistent variables share one
space of keys. A name of a source holds no mark, so that a key with a number is not the key of
another name; the cell of a variable asks for a key under its qualifier and its name, which do not
look like a numbered name either. Hence the host never takes two histories for one, whatever names
a source declares, in which scopes and how often.

## Main results

* `Program.nodup_keys_steps`: lowering hands out no key twice.
* `Program.nodup_cells`: every persistent declaration has a cell of its own.
* `Source.nodup_keys_lower`: both, for the programs of sources.
-/

namespace Pine

open Script List

/-! ### Names that ask for keys -/

/-- A qualifier in front of a name gives no numbered name, whatever the qualifier. -/
theorem not_isNumbered_qualified (qualifier : String) {name : String}
    (h : isNameShaped name = true) : ¬IsNumbered '#' (qualifier ++ ":" ++ name) := by
  rintro ⟨front, n, htext⟩
  have hmark : '#' ∉ ':' :: name.toList := by
    simpa using notMem_of_isNameShaped h (c := '#') (by decide)
  have hcolon : ':' ∉ '#' :: (toString n).toList := by
    intro hmem
    obtain heq | hmem := mem_cons.1 hmem
    · exact absurd heq (by decide)
    · exact absurd (isDigit_of_mem_repr hmem) (by decide)
  have hsplit : qualifier.toList ++ ':' :: name.toList = front ++ '#' :: (toString n).toList := by
    simpa [String.toList_append] using htext
  -- the colon lies in front of the mark or behind it
  obtain ⟨rest, -, hrest⟩ | ⟨rest, -, hrest⟩ := append_eq_append_iff.1 hsplit
  · exact hmark (hrest ▸ mem_append_right _ (mem_cons_self ..))
  · exact hcolon (hrest ▸ mem_append_right _ (mem_cons_self ..))

namespace Program

variable {L : String → String → Prop} {program : Program}

/-- The names whose history a well-named program reads are words. -/
theorem isNameShaped_indexedNames (h : NamedStmts L program) :
    ∀ name ∈ program.indexedNames, isNameShaped name = true := by
  intro name hname
  obtain ⟨n, hn, hindexed⟩ := mem_filterMap.1 hname
  have hnamed := h n hn
  unfold Node.indexed? at hindexed
  split at hindexed
  · cases hindexed
    exact hnamed
  · cases hindexed

/-! ### Programs -/

/-- **Lowering a well-named program hands out no key twice**, and the keys of the series and cells
in its script are among those handed out. -/
theorem nodup_keys_steps (h : NamedStmts L program) (options : Lowering.Options) (version : Nat)
    (d₀ d : Diagnostics) {body : List Script.Stmt} {s : Lowering.State}
    (hsteps : program.steps
      (program.context options { (Indicator.ofProgram program d₀).1 with version })
      { diagnostics := d } = .ok body s) :
    s.keys.Nodup ∧ ∀ k, (stmtMarks .keys body).count k ≤ s.keys.count k := by
  have hdraws : Lowering.DrawsStmts .keys (fun name => ¬IsNumbered '#' name) (program.steps
      (program.context options { (Indicator.ofProgram program d₀).1 with version })) := by
    refine program.draws_steps (fun name hname => ?_) fun c hc => ?_
    · have hshaped := isNameShaped_indexedNames h name (Indicator.mem_indexedNames hname)
      exact not_isNumbered_of_notMem (notMem_of_isNameShaped hshaped (by decide))
    · exact not_isNumbered_qualified c.qualifier (isNameShaped_persistents h c hc)
  obtain ⟨hcount, hnames⟩ := hdraws _ body s hsteps
  refine ⟨Lowering.nodup_ledger (hnames nofun), fun k => ?_⟩
  have hk := hcount k
  rw [count_nil, Nat.zero_add] at hk
  exact Nat.le_trans (Nat.le_add_right ..) hk

/-- No two persistent declarations of a keyed program share a key. -/
theorem nodup_cellKeys (program : Program) :
    (program.keyed.nodes.filterMap Node.cellKey?).Nodup := by
  have hkey : Node.cellKey? = fun n => if n.cellKey?.isSome then n.key? else none := by
    funext n
    cases hn : n.cellKey? with
    | none => rfl
    | some key =>
      unfold Node.cellKey? at hn
      split at hn
      · split at hn
        · cases hn
        · exact hn.symm
      · cases hn
  rw [hkey, ← filterMap_filter]
  exact program.nodup_keys_keyed.sublist (filter_sublist.filterMap _)

/-- **Every persistent declaration has a cell of its own.** The cells of a well-named program are
listed by the keys of its persistent declarations, no declaration is listed twice, and no cell. -/
theorem nodup_cells (h : NamedStmts L program) :
    program.keyed.cells.map Prod.fst = program.keyed.nodes.filterMap Node.cellKey? ∧
      (program.keyed.cells.map Prod.fst).Nodup ∧ (program.keyed.cells.map Prod.snd).Nodup := by
  have hkeys : program.keyed.cells.map Prod.fst = program.keyed.nodes.filterMap Node.cellKey? := by
    rw [← map_key_persistents]
    exact map_fst_zip (by simp [length_cellNames])
  refine ⟨hkeys, hkeys ▸ nodup_cellKeys program, ?_⟩
  rw [cells, map_snd_zip (by simp [length_cellNames])]
  exact nodup_cellNames _ (isNameShaped_persistents (named_keyed h)) []

end Program

/-! ### Sources -/

/-- **Keys and cells are never used twice.** The program of a source has a script, with or without
the functions that are never called, in every language version, with every set of builtins and
behind any warnings. No two keys that are handed out on the way are equal, be they for the series of
variables or for cells, and what the script makes is kept under these keys, under each at most once.
The cells are those of the persistent declarations, and different declarations have different
cells. -/
theorem Source.nodup_keys_lower {limits : Limits} {source : List Char} {program : Program}
    (hread : Source.read limits source = .ok program) (pruned : Bool) (options : Lowering.Options)
    (version : Nat) (d₀ d : Diagnostics) :
    let p := (if pruned then program.prune else program).keyed
    let indicator := { (Indicator.ofProgram p d₀).1 with version }
    ∃ script d' s, p.lower options indicator d = (.ok script, d') ∧
      p.steps (p.context options indicator) { diagnostics := d } = .ok script.body s ∧
      s.keys.Nodup ∧ script.keys.Nodup ∧ (∀ k ∈ script.keys, k ∈ s.keys) ∧
      p.cells.map Prod.fst = p.nodes.filterMap Node.cellKey? ∧
      (p.cells.map Prod.fst).Nodup ∧ (p.cells.map Prod.snd).Nodup := by
  intro p indicator
  have hpruned : NamedStmts Grammar.IsLocalName (if pruned then program.prune else program) ∧
      CompleteStmts anyKey (if pruned then program.prune else program) := by
    split
    · exact ⟨Program.named_prune (named_read hread), Program.complete_prune (complete_read hread)⟩
    · exact ⟨named_read hread, complete_read hread⟩
  obtain ⟨script, d', hlower⟩ :=
    Program.lower_complete (Program.complete_keyed hpruned.2) options indicator d
  obtain ⟨s, hsteps⟩ := Program.exists_steps_of_lower hlower
  obtain ⟨hnodup, hcount⟩ :=
    Program.nodup_keys_steps (Program.named_keyed hpruned.1) options version d₀ d hsteps
  refine ⟨script, d', s, hlower, hsteps, hnodup, ?_, ?_, Program.nodup_cells hpruned.1⟩
  · rw [nodup_iff_count_le_one] at hnodup ⊢
    exact fun k => Nat.le_trans (hcount k) (hnodup k)
  · intro k hk
    exact count_pos_iff.1 (Nat.lt_of_lt_of_le (count_pos_iff.2 hk) (hcount k))

/-- The history of a name is read that a function has as a parameter, and that is declared as a
persistent variable in three scopes, under both qualifiers. -/
def Source.redeclared : List Char :=
  ("f(n) => n[1]\nvar n = f(close)\nif n > 1\n    var n = 1\n    n += 1\nelse\n" ++
    "    varip n = 2\n    n += 1\n").toList

theorem Source.nodup_keys_lower_redeclared :
    ∃ program, Source.read .standard Source.redeclared = .ok program ∧
      ∃ (script : Script) (d' : Diagnostics) (s : Lowering.State),
        program.keyed.lower {} { (Indicator.ofProgram program.keyed {}).1 with version := 5 } {} =
          (.ok script, d') ∧
        s.keys.reverse = ["var:n", "var:n#2", "varip:n", "n", "n#2", "n#3", "n#4"] ∧
        s.keys.Nodup ∧ (∀ k ∈ script.keys, k ∈ s.keys) ∧
        program.keyed.cells.map Prod.snd = ["_var_n", "_var_n$2", "_var_n$3"] := by
  have hrun : (Source.read .standard Source.redeclared).toOption.bind (fun program =>
      (program.keyed.steps (program.keyed.context {}
        { (Indicator.ofProgram program.keyed {}).1 with version := 5 })
        { diagnostics := {} }).casesOn (motive := fun _ => Option (List String × List String))
      (fun _ s => some (s.keys.reverse, program.keyed.cells.map Prod.snd)) fun _ _ => none) =
      some (["var:n", "var:n#2", "varip:n", "n", "n#2", "n#3", "n#4"],
        ["_var_n", "_var_n$2", "_var_n$3"]) := by
    have hsource : Source.redeclared = _ :=
      String.toList_append.trans (congrArg₂ (· ++ ·) String.toList_ofList String.toList_ofList)
    rw [hsource]
    decide +kernel
  cases hread : Source.read .standard Source.redeclared with
  | error => rw [hread] at hrun; cases hrun
  | ok program =>
    have hkept := Source.nodup_keys_lower hread false {} 5 {} {}
    simp only [Bool.false_eq_true, if_false] at hkept
    obtain ⟨script, d', s, hlower, hsteps, hnodup, -, hmem, -, -, -⟩ := hkept
    rw [hread] at hrun
    simp only [Except.toOption, Option.bind_some, hsteps] at hrun
    obtain ⟨hkeys, hcells⟩ := Prod.mk.inj (Option.some.inj hrun)
    exact ⟨program, rfl, script, d', s, hlower, hkeys, hnodup, hmem, hcells⟩

end Pine
