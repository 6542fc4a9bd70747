import Pine.Builtin.Standard
import Pine.Proofs.Script.Names

/-!
# Names that cannot be captured

A script holds names of three origins: names of the source, names that the compiler makes up, and
names of the host and the target language. A name of the source that could be taken for one of the
others gets a start of its own. That start is itself one of the starts that are set aside, so no
other name of the source runs into a name that was changed.

## Main results

* `Script.safeName_injective`: names of the source do not meet in the script.
* `Script.startsWith_safeName`: names of the source do not start like names that are made up.
* `Script.eq_of_repr_eq`: a number can be read off its digits.
* `Script.safeName_apart`: names of the source meet no name of another origin.
-/

namespace Pine

open List

namespace Script

/-! ### Starts -/

theorem startsWith_append (start name : String) : Text.startsWith (start ++ name) start = true := by
  rw [Text.startsWith, String.toList_append, isPrefixOf_iff_prefix]
  exact prefix_append ..

/-- A text with a start keeps it in front of a further text. -/
theorem startsWith_append_of_startsWith {text start : String}
    (h : Text.startsWith text start = true) (more : String) :
    Text.startsWith (text ++ more) start = true := by
  rw [Text.startsWith, isPrefixOf_iff_prefix] at h ⊢
  rw [String.toList_append]
  exact h.trans (prefix_append ..)

/-- Of two starts of one text one is a start of the other. -/
theorem startsWith_total {text start start' : String} (h : Text.startsWith text start = true)
    (h' : Text.startsWith text start' = true) :
    Text.startsWith start start' = true ∨ Text.startsWith start' start = true := by
  simp only [Text.startsWith, isPrefixOf_iff_prefix] at h h' ⊢
  exact (List.prefix_or_prefix_of_prefix h h').symm

/-- A name that keeps its spelling does not start like the names that are made up. -/
theorem startsWith_of_keepsSpelling {name start : String} (h : keepsSpelling name = true)
    (hstart : start ∈ madeUpStarts) : Text.startsWith name start = false := by
  rw [keepsSpelling, Bool.and_eq_true, Bool.not_eq_true', any_eq_false] at h
  simpa using h.2 start hstart

/-- No start that is set aside is a start of another one. -/
theorem madeUpStarts_apart : ∀ start ∈ madeUpStarts, ∀ start' ∈ madeUpStarts,
    Text.startsWith start start' = true → start = start' := by
  decide

/-- A text starts in one of the ways that are set aside at most. -/
theorem start_unique {text start start' : String} (hmem : start ∈ madeUpStarts)
    (hmem' : start' ∈ madeUpStarts) (h : Text.startsWith text start = true)
    (h' : Text.startsWith text start' = true) : start = start' := by
  obtain hs | hs := startsWith_total h h'
  · exact madeUpStarts_apart start hmem start' hmem' hs
  · exact (madeUpStarts_apart start' hmem' start hmem hs).symm

theorem safeStart_mem_madeUpStarts : safeStart ∈ madeUpStarts := by decide

/-! ### Safe spellings -/

theorem safeName_injective : Function.Injective safeName := by
  have hkept {a b : String} (ha : keepsSpelling a = true) : a ≠ safeStart ++ b := by
    rintro rfl
    have hstarts := startsWith_of_keepsSpelling ha safeStart_mem_madeUpStarts
    rw [startsWith_append] at hstarts
    cases hstarts
  intro a b h
  unfold safeName at h
  split at h
  · next ha =>
    split at h
    · exact h
    · exact absurd h (hkept ha)
  · split at h
    · next hb => exact absurd h.symm (hkept hb)
    · exact String.append_right_inj _ |>.1 h

/-- **Names of the source do not start like names that are made up.** -/
theorem startsWith_safeName {start : String} (hmem : start ∈ madeUpStarts)
    (hne : start ≠ safeStart) (name : String) : Text.startsWith (safeName name) start = false := by
  unfold safeName
  split
  · next hkept => exact startsWith_of_keepsSpelling hkept hmem
  · rw [← Bool.not_eq_true]
    intro h
    exact hne (start_unique hmem safeStart_mem_madeUpStarts h (startsWith_append safeStart name))

/-- A name of the source is spelled as no reserved name is. -/
theorem safeName_notMem_reserved (name : String) : safeName name ∉ reserved := by
  unfold safeName
  split
  · next hkept =>
    rw [keepsSpelling, Bool.and_eq_true, decide_eq_true_eq] at hkept
    exact hkept.1
  · intro hmem
    have hfree : ∀ word ∈ reserved, Text.startsWith word safeStart = false := by decide
    have hstarts := hfree _ hmem
    rw [startsWith_append] at hstarts
    cases hstarts

/-- A name that starts like those that are made up is no name of the source. -/
theorem safeName_ne_of_startsWith {made start : String} (hmem : start ∈ madeUpStarts)
    (hne : start ≠ safeStart) (h : Text.startsWith made start = true) (name : String) :
    safeName name ≠ made := by
  rintro rfl
  rw [startsWith_safeName hmem hne] at h
  cases h

theorem safeName_ne_start {start : String} (hmem : start ∈ madeUpStarts) (hne : start ≠ safeStart)
    (name : String) : safeName name ≠ start := by
  have h := startsWith_append start ""
  rw [String.append_empty] at h
  exact safeName_ne_of_startsWith hmem hne h name

/-! ### Names that the compiler makes up -/

theorem startsWith_seriesName (name : String) :
    Text.startsWith (seriesName name) "_series_" = true := startsWith_append ..

theorem startsWith_historyName (name : String) :
    Text.startsWith (historyName name) "_getHistorical_" = true := startsWith_append ..

theorem startsWith_cellName (name : String) :
    Text.startsWith (cellName name) "_var_" = true := startsWith_append ..

theorem startsWith_loopName (n : Nat) : Text.startsWith (loopName n) "_loop" = true :=
  startsWith_append ..

theorem startsWith_directionName (n : Nat) : Text.startsWith (directionName n) "_loop" = true :=
  startsWith_append_of_startsWith (startsWith_loopName n) "_dir"

theorem startsWith_subjectName (n : Nat) : Text.startsWith (subjectName n) "_switch" = true :=
  startsWith_append ..

theorem subjectName_ne_safeName (n : Nat) (name : String) : subjectName n ≠ safeName name :=
  (safeName_ne_of_startsWith (by decide) (by decide) (startsWith_subjectName n) name).symm

/-! ### Numbered names -/

/-- Texts that hold a mark in front of a last part without it are cut there in one way only. -/
theorem eq_of_append_cons {c : Char} {xs ys xs' ys' : List Char} (hy : c ∉ ys) (hy' : c ∉ ys')
    (h : xs ++ c :: ys = xs' ++ c :: ys') : xs = xs' ∧ ys = ys' := by
  rcases append_eq_append_iff.1 h with ⟨as, rfl, has⟩ | ⟨as, rfl, has⟩
  · cases as with
    | nil => exact ⟨(List.append_nil _).symm, (List.cons.inj has).2⟩
    | cons a as => exact absurd (by rw [(List.cons.inj has).2]; simp) hy
  · cases as with
    | nil => exact ⟨List.append_nil _, (List.cons.inj has).2.symm⟩
    | cons a as => exact absurd (by rw [(List.cons.inj has).2]; simp) hy'

theorem isDigit_of_mem_repr {n : Nat} {c : Char} (h : c ∈ n.repr.toList) : c.isDigit = true := by
  rw [Nat.repr_eq_ofList_toDigits, String.toList_ofList] at h
  exact Nat.isDigit_of_mem_toDigits (by decide) (by decide) h

theorem eq_of_repr_eq {m n : Nat} (h : m.repr = n.repr) : m = n := by
  rw [Nat.repr_eq_ofList_toDigits, Nat.repr_eq_ofList_toDigits, String.ofList_inj] at h
  have hvalue := congrArg (Nat.ofDigitChars 10 · 0) h
  simpa using hvalue

/-! ### Names of the host -/

/-- The first identifier in a text, if there is one. -/
def rootName? (text : String) : Option String :=
  match (text.toList.dropWhile (!isIdentifierStart ·)).takeWhile isIdentifierPart with
  | [] => none
  | word => some (String.ofList word)

/-- The names at which the targets of the standard builtins start: those of the target language,
of the host context and of the two libraries of the host. -/
def standardRoots : List String :=
  ["_ta", "_rt", "Math", "ctx", "Date", "Array", "Number", "Boolean", "true", "false"]

theorem mem_standardRoots {name : String} {b : Builtin} (h : (name, b) ∈ Registry.standard.entries)
    {root : String} (hroot : rootName? b.target = some root) : root ∈ standardRoots := by
  have hall : (Registry.standard.entries.all fun e =>
      (rootName? e.2.target).all (· ∈ standardRoots)) = true := by
    decide
  have hentry := all_eq_true.1 hall (name, b) h
  rw [hroot] at hentry
  exact of_decide_eq_true hentry

theorem safeName_ne_rootName? (x : String) {name : String} {b : Builtin}
    (h : (name, b) ∈ Registry.standard.entries) : rootName? b.target ≠ some (safeName x) := by
  have hroots : ∀ root ∈ standardRoots,
      root ∈ reserved ∨ root ∈ madeUpStarts ∧ root ≠ safeStart := by
    decide
  intro hroot
  obtain hreserved | ⟨hmem, hne⟩ := hroots _ (mem_standardRoots h hroot)
  · exact safeName_notMem_reserved x hreserved
  · exact safeName_ne_start hmem hne x rfl

/-- **No name of a source is captured.** Different names of the source are different in the script;
none of them is a reserved name there or starts like the names that the compiler makes up. So,
whatever the names `x` and `y`, the name of `x` is not that of the host context or of one of its
functions, not that of the series, the history or a cell of `y`, numbered or not, not a loop
counter, the direction of a loop or the subject of a switch, and not the name at which the target
of a standard builtin starts. -/
theorem safeName_apart :
    Function.Injective safeName ∧
    (∀ x, safeName x ∉ reserved ∧ ∀ start ∈ madeUpStarts, start ≠ safeStart →
      Text.startsWith (safeName x) start = false) ∧
    ∀ x y,
      (∀ name ∈ ["ctx", "_wrapSeries", "_import"], safeName x ≠ name) ∧
      (∀ made ∈ [seriesName, historyName, cellName], safeName x ≠ made (safeName y) ∧
        ∀ n : Nat, safeName x ≠ made (safeName y) ++ "$" ++ toString n) ∧
      (∀ n : Nat, safeName x ≠ loopName n ∧ safeName x ≠ directionName n ∧
        safeName x ≠ subjectName n) ∧
      ∀ name b, (name, b) ∈ Registry.standard.entries →
        rootName? b.target ≠ some (safeName x) := by
  refine ⟨safeName_injective, fun x => ⟨safeName_notMem_reserved x, fun start hmem hne =>
    startsWith_safeName hmem hne x⟩, fun x y => ⟨?_, ?_, fun n => ⟨?_, ?_, ?_⟩, ?_⟩⟩
  · have hctx : safeName x ≠ "ctx" := fun h => safeName_notMem_reserved x (h ▸ by decide)
    exact forall_mem_cons.2 ⟨hctx, forall_mem_cons.2
      ⟨safeName_ne_start (by decide) (by decide) x, forall_mem_singleton.2
        (safeName_ne_start (by decide) (by decide) x)⟩⟩
  · have hmade {made start : String} (hmem : start ∈ madeUpStarts) (hne : start ≠ safeStart)
        (h : Text.startsWith made start = true) :
        safeName x ≠ made ∧ ∀ n : Nat, safeName x ≠ made ++ "$" ++ toString n :=
      ⟨safeName_ne_of_startsWith hmem hne h x, fun n => safeName_ne_of_startsWith hmem hne
        (startsWith_append_of_startsWith (startsWith_append_of_startsWith h "$") _) x⟩
    exact forall_mem_cons.2 ⟨hmade (by decide) (by decide) (startsWith_seriesName _),
      forall_mem_cons.2 ⟨hmade (by decide) (by decide) (startsWith_historyName _),
        forall_mem_singleton.2 (hmade (by decide) (by decide) (startsWith_cellName _))⟩⟩
  · exact safeName_ne_of_startsWith (by decide) (by decide) (startsWith_loopName n) x
  · exact safeName_ne_of_startsWith (by decide) (by decide) (startsWith_directionName n) x
  · exact safeName_ne_of_startsWith (by decide) (by decide) (startsWith_subjectName n) x
  · exact fun name b h => safeName_ne_rootName? x h

end Script

end Pine
