import Mathlib.Data.List.Basic
import Mathlib.Data.List.TakeWhile
import Mathlib.Tactic.SplitIfs
import Pine.Command.Build

/-!
# Where outputs go

The output of a source has the path of the source with another extension, or only its last part if
outputs go into a directory. So two outputs have one path exactly if what is kept of their sources
is the same, and sources that differ in what is not kept overwrite each other's outputs. An output
always ends with its extension, and takes the place of its own source if that has the extension.

## Main results

* `Path.cleanChars_slash`: a part behind a directory stays the last part of the path.
* `Build.target_eq_iff`: when two outputs have one path.
* `Build.nodup_targets_iff`: the outputs of a run.
-/

namespace Pine

open List

namespace Path

/-- The text of a path behind its last slash. -/
def lastPart (path : List Char) : List Char := (path.reverse.takeWhile (· ≠ '/')).reverse

/-- A path without its extension. -/
def stem (path : String) : String := withExtension "" path

/-- The last part of a path without its extension. -/
def title (path : String) : String := String.ofList (lastPart (stem path).toList)

/-- The extension makes a last part of a path with any title. -/
def IsPlain (ext : String) : Prop := '/' ∉ ext.toList ∧ ext ≠ "." ∧ ext ≠ ".."

instance (ext : String) : Decidable (IsPlain ext) :=
  inferInstanceAs (Decidable ('/' ∉ ext.toList ∧ ext ≠ "." ∧ ext ≠ ".."))

theorem withExtension_eq (ext path : String) : withExtension ext path = stem path ++ ext := by
  rw [stem, withExtension, withExtension, String.append_empty]

theorem suffix_isSuffix (path : String) : (suffix path).toList <:+ path.toList := by
  unfold suffix
  extract_lets last
  have hlast : last.reverse <:+ path.toList := by
    rw [← reverse_reverse path.toList, reverse_suffix]
    exact takeWhile_prefix _
  split
  · next hdot =>
    -- the extension is what the last part has from its last dot on
    obtain ⟨ext, front, heq, hext⟩ := eq_append_cons_of_mem hdot
    have htake : last.takeWhile (· ≠ '.') = ext := by
      rw [heq, takeWhile_append_of_pos fun c hc => by simpa using ne_of_mem_of_not_mem hc hext,
        takeWhile_cons_of_neg (by simp), List.append_nil]
    rw [htake, String.toList_ofList]
    refine List.IsSuffix.trans ?_ hlast
    rw [heq, reverse_append, reverse_cons, append_assoc]
    exact suffix_append _ _
  · exact nil_suffix

/-- A path is its stem and its extension. -/
theorem stem_append_suffix (path : String) : stem path ++ suffix path = path := by
  obtain ⟨front, hfront⟩ := suffix_isSuffix path
  have hlength : path.length - (suffix path).length = front.length := by
    rw [← String.length_toList, ← String.length_toList, ← hfront, length_append,
      Nat.add_sub_cancel]
  rw [stem, withExtension, hlength, ← hfront, take_left, String.append_empty,
    ← String.ofList_toList (s := suffix path), ← String.ofList_append, hfront, String.ofList_toList]

/-! ### Cleaning -/

theorem parts_ne_nil (path : List Char) : parts path ≠ [] := by
  fun_cases parts path <;> simp

theorem parts_append (dir path : List Char) :
    parts (dir ++ '/' :: path) = parts dir ++ parts path := by
  induction dir with
  | nil => rfl
  | cons c dir ih =>
    obtain ⟨first, rest, hparts⟩ := exists_cons_of_ne_nil (parts_ne_nil dir)
    by_cases hc : c = '/'
    · subst hc
      simp [parts, ih]
    · simp [parts, ih, hparts]

theorem parts_of_notMem {path : List Char} (h : '/' ∉ path) : parts path = [path] := by
  induction path with
  | nil => rfl
  | cons c path ih =>
    rw [mem_cons, not_or] at h
    simp [parts, ih h.2, Ne.symm h.1]

theorem joinParts_concat (ps : List (List Char)) (p : List Char) :
    joinParts (ps ++ [p]) = (ps.flatMap (· ++ ['/'])) ++ p := by
  induction ps with
  | nil => rfl
  | cons q ps ih =>
    cases ps with
    | nil => simp [joinParts]
    | cons r ps => simpa [joinParts] using ih

/-- **A part behind a directory stays the last part of the path**, and what stands in front of it
depends on the directory alone. -/
theorem cleanChars_slash {dir : List Char} (hdir : dir ≠ []) : ∃ front, ∀ name : List Char,
    '/' ∉ name → name ≠ [] → name ≠ ['.'] → name ≠ ['.', '.'] →
      cleanChars (dir ++ '/' :: name) = front ++ name := by
  have hroot (name : List Char) : isRooted (dir ++ '/' :: name) = isRooted dir := by
    rw [isRooted, isRooted, head?_append_of_ne_nil _ hdir]
  refine ⟨(if isRooted dir then ['/'] else []) ++
    ((parts dir).foldl (keep (isRooted dir)) []).reverse.flatMap (· ++ ['/']),
    fun name hslash hnil hdot hdots => ?_⟩
  have hkeep (kept : List (List Char)) : keep (isRooted dir) kept name = name :: kept := by
    simp [keep, hnil, hdot, hdots]
  have hkept : ((parts (dir ++ '/' :: name)).foldl (keep (isRooted dir)) []).reverse =
      ((parts dir).foldl (keep (isRooted dir)) []).reverse ++ [name] := by
    rw [parts_append, parts_of_notMem hslash, foldl_append, foldl_cons, foldl_nil,
      hkeep, reverse_cons]
  rw [cleanChars, hroot, hkept, joinParts_concat]
  cases isRooted dir with
  | true => rfl
  | false => exact (if_neg Bool.false_ne_true).trans (if_neg (by simp [hnil]))

theorem base_append {ext : String} (hext : IsPlain ext) (hne : ext ≠ "") (path : String) :
    base (path ++ ext) = String.ofList (lastPart path.toList ++ ext.toList) := by
  obtain ⟨hslash, -⟩ := hext
  have hlist : ext.toList.reverse ≠ [] := by simpa using hne
  have hfree : ∀ c ∈ ext.toList.reverse, c ≠ '/' := fun c hc =>
    ne_of_mem_of_not_mem (mem_reverse.1 hc) hslash
  have hdrop : ((path ++ ext).toList.reverse).dropWhile (· = '/') =
      ext.toList.reverse ++ path.toList.reverse := by
    obtain ⟨c, cs, hcs⟩ := exists_cons_of_ne_nil hlist
    rw [String.toList_append, reverse_append, hcs, cons_append,
      dropWhile_cons_of_neg (by simpa using hfree c (by simp [hcs]))]
  unfold base
  rw [if_neg (by simp [hne]), hdrop,
    takeWhile_append_of_pos fun c hc => by simpa using hfree c hc, reverse_append,
    reverse_reverse]
  exact if_neg (by simpa using fun _ => hne)

/-- A title with a plain extension is the last part of a path. -/
theorem isPart_append {ext : String} (hext : IsPlain ext) (hdot : Text.startsWith ext "." = true)
    (path : List Char) : let name := lastPart path ++ ext.toList
    '/' ∉ name ∧ name ≠ [] ∧ name ≠ ['.'] ∧ name ≠ ['.', '.'] := by
  obtain ⟨hslash, hone, htwo⟩ := hext
  obtain ⟨more, hmore⟩ : ∃ more, ext.toList = '.' :: more := by
    obtain ⟨more, hmore⟩ := isPrefixOf_iff_prefix.1 hdot
    exact ⟨more, hmore.symm⟩
  have hmore' : more ≠ [] := by
    rintro rfl
    exact hone (String.toList_inj.1 hmore)
  have hlast : '/' ∉ lastPart path := fun h => by
    simpa using mem_takeWhile_imp (mem_reverse.1 h)
  refine ⟨by simp [hlast, hslash], by simp [hmore], ?_, ?_⟩
  all_goals
    rw [hmore]
    intro heq
  · cases hl : lastPart path with
    | nil => exact hmore' (List.cons.inj (hl ▸ heq)).2
    | cons c cs => simp [hl] at heq
  · cases hl : lastPart path with
    | nil => exact htwo (String.toList_inj.1 (hmore.trans (by simpa [hl] using heq)))
    | cons c cs =>
      rw [hl, cons_append, List.cons.injEq] at heq
      cases cs with
      | nil => exact hmore' (by simpa using heq.2)
      | cons d ds => simp at heq

/-- The path of an output in a directory: what stands in front of its last part depends on the
directory alone. -/
theorem relocate_append {ext : String} (hext : IsPlain ext) (hdot : Text.startsWith ext "." = true)
    {dir : String} (hdir : dir ≠ "") : ∃ front : List Char, ∀ path : String,
      (relocate (path ++ ext) dir).toList = front ++ (lastPart path.toList ++ ext.toList) := by
  have hne : ext ≠ "" := by
    rintro rfl
    cases hdot
  obtain ⟨front, hfront⟩ := cleanChars_slash (show dir.toList ≠ [] by simpa using hdir)
  refine ⟨front, fun path => ?_⟩
  obtain ⟨hslash, hnil, hone, htwo⟩ := isPart_append hext hdot path.toList
  rw [relocate, if_neg hdir, join, if_neg hdir, base_append hext hne, clean, String.toList_ofList,
    ← hfront _ hslash hnil hone htwo]
  simp

end Path

namespace Build

open Pine.Path

/-- What the path of an output keeps of the path of its source. -/
def kept (outDir path : String) : String := if outDir = "" then stem path else title path

theorem startsWith_of_check {s : Settings} (h : s.check = .ok s) :
    Text.startsWith s.extension "." = true := by
  unfold Settings.check at h
  split_ifs at h with _ _ _ _ hext
  simpa using hext

section

variable {s : Settings} {outDir : String}

/-- **Outputs end with what is kept of their sources**, behind a text that they have in common. -/
theorem target_toList (hs : s.check = .ok s) (hout : outDir = "" ∨ IsPlain s.extension) :
    ∃ front : List Char, ∀ path, (target s outDir path).toList =
      front ++ ((kept outDir path).toList ++ s.extension.toList) := by
  by_cases hdir : outDir = ""
  · refine ⟨[], fun path => ?_⟩
    rw [target, relocate, if_pos hdir, kept, if_pos hdir, Settings.outputPath, withExtension_eq,
      String.toList_append, nil_append]
  · obtain ⟨front, hfront⟩ :=
      relocate_append (hout.resolve_left hdir) (startsWith_of_check hs) hdir
    refine ⟨front, fun path => ?_⟩
    rw [target, Settings.outputPath, withExtension_eq, hfront, kept, if_neg hdir, title,
      String.toList_ofList]

theorem target_eq_iff (hs : s.check = .ok s) (hout : outDir = "" ∨ IsPlain s.extension)
    (p q : String) : target s outDir p = target s outDir q ↔ kept outDir p = kept outDir q := by
  obtain ⟨front, hfront⟩ := target_toList hs hout
  rw [← String.toList_inj, hfront, hfront, append_right_inj, append_left_inj,
    String.toList_inj]

/-- **The outputs of a run** have paths of their own exactly if what is kept of the paths of the
sources is different, no output takes the place of a source if no source ends with the extension of
outputs, and an output next to its source takes the place of it exactly if the source has that
extension. -/
theorem nodup_targets_iff (hs : s.check = .ok s) (hout : outDir = "" ∨ IsPlain s.extension)
    (sources : List String) :
    ((sources.map (target s outDir)).Nodup ↔ (sources.map (kept outDir)).Nodup) ∧
    ((∀ path ∈ sources, ¬s.extension.toList <:+ path.toList) →
      ∀ path ∈ sources, target s outDir path ∉ sources) ∧
    ∀ path, target s "" path = path ↔ suffix path = s.extension := by
  refine ⟨?_, fun hsources path _ hmem => ?_, fun path => ?_⟩
  · unfold List.Nodup
    rw [pairwise_map, pairwise_map]
    exact List.Pairwise.iff fun p q => not_congr (target_eq_iff hs hout p q)
  · obtain ⟨front, hfront⟩ := target_toList hs hout
    refine hsources _ hmem ?_
    rw [hfront, ← append_assoc]
    exact suffix_append _ _
  · rw [target, relocate, if_pos rfl, Settings.outputPath, withExtension_eq]
    nth_rewrite 2 [← stem_append_suffix path]
    rw [String.append_right_inj, eq_comm]

end

/-- A run with sources in two directories. -/
theorem nodup_targets_iff_twoDirectories :
    let sources := ["/a/x.pine", "/b/y.pine", "/b/x.y.pine"]
    (sources.map (target {} "out")).Nodup ∧ ∀ path ∈ sources, target {} "out" path ∉ sources := by
  have hplain : IsPlain ".js" := by with_unfolding_all decide
  have h := nodup_targets_iff (show Settings.check {} = .ok {} from rfl)
    (.inr hplain : "out" = "" ∨ _) ["/a/x.pine", "/b/y.pine", "/b/x.y.pine"]
  exact ⟨h.1.2 (by with_unfolding_all decide), h.2.1 (by with_unfolding_all decide)⟩

/-- **Outputs can overwrite each other and their sources**: with a directory for outputs the
directories of the sources are not kept, and a source can have the extension of outputs. -/
theorem overwrites_possible : Settings.check {} = .ok {} ∧
    (["/a/x.pine", "/b/x.pine"].Nodup ∧
      ¬(["/a/x.pine", "/b/x.pine"].map (target {} "out")).Nodup) ∧
    target {} "" "/b/y.js" ∈ ["/b/y.js"] :=
  ⟨rfl, ⟨by decide, by decide +kernel⟩, by decide +kernel⟩

end Build

end Pine
