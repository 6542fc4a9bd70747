import Mathlib.Data.List.TakeWhile
import Pine.Proofs.Source.Normalize
import Pine.Proofs.Token.Cut
import Pine.Proofs.Tree.Spelling

/-!
# Cutting printed text

Printed text is cut back into its words. A word, a number or a color ends in front of a character
that it cannot go on with; an operator ends in front of a character that makes no longer operator
or comment of it; a mark of punctuation and a quoted string end by themselves. So a text that is put
together from such parts is cut into the words of its parts.
-/

namespace Pine.Piece

open List

/-! ### Texts in a row -/

/-- The piece is a token or blanks within a line. -/
def isInline (p : Piece) : Bool :=
  match p.form with
  | .token .. | .blank => true
  | _ => false

/-- In front of `ds`, the text `cs` is cut into tokens and blanks with the given words. -/
structure Cuts (cs : List Char) (ws : List Word) (ds : List Char) : Prop where
  cr_notMem : '\r' ∉ cs
  cut : ∃ ps, split (cs ++ ds) = ps ++ split ds ∧ ps.filterMap word? = ws ∧
    ∀ p ∈ ps, p.isInline = true

variable {c : Char} {cs cs' ds : List Char} {ws ws' : List Word}

theorem Cuts.nil (ds : List Char) : Cuts [] [] ds := ⟨by simp, [], rfl, rfl, by simp⟩

/-- **Texts in a row are cut into the words of both.** -/
theorem Cuts.append (h : Cuts cs ws (cs' ++ ds)) (h' : Cuts cs' ws' ds) :
    Cuts (cs ++ cs') (ws ++ ws') ds := by
  obtain ⟨hr, ps, hs, hw, hi⟩ := h
  obtain ⟨hr', ps', hs', hw', hi'⟩ := h'
  refine ⟨?_, ps ++ ps', ?_, ?_, ?_⟩
  · rw [mem_append]
    exact fun h => h.elim hr hr'
  · rw [append_assoc, hs, hs', append_assoc]
  · rw [filterMap_append, hw, hw']
  · intro p hp
    exact (mem_append.1 hp).elim (hi p) (hi' p)

/-- The words of a form. -/
def Form.words : Form → List Word
  | .token kind lexeme => [(kind, lexeme)]
  | _ => []

/-- A text that is one piece is cut into the word of that piece. -/
theorem cuts_of_classify {form : Form} (h : classify c (cs ++ ds) = (form, cs.length))
    (hi : (Piece.mk form (c :: cs)).isInline = true) (hr : '\r' ∉ c :: cs) :
    Cuts (c :: cs) form.words ds := by
  refine ⟨hr, [⟨form, c :: cs⟩], ?_, ?_, ?_⟩
  · rw [cons_append, split, h]
    simp
  · cases form <;> rfl
  · intro p hp
    rw [mem_singleton.1 hp]
    exact hi

/-! ### Words -/

/-- A letter or underscore, followed by letters, digits and underscores. -/
def IsWord (s : String) : Prop :=
  ∃ c cs, s.toList = c :: cs ∧ isWordStart c = true ∧ ∀ d ∈ cs, isWordPart d = true

theorem classify_word (hc : isWordStart c = true) (cs : List Char) : classify c cs =
    plain (wordKind (String.ofList (c :: cs.take (run isWordPart cs)))) c cs (run isWordPart cs) := by
  have hne (d : Char) (hd : isWordStart d = false) : c ≠ d := by
    rintro rfl
    rw [hc] at hd
    cases hd
  have hslash := hne '/' (by decide)
  have hblank : Source.isBlank c = false := by
    simp [Source.isBlank, hne ' ' (by decide), hne '\t' (by decide)]
  unfold classify
  rw [if_neg (hne '\n' (by decide)), if_neg (by simp [hblank]), if_neg (by simp [hslash]),
    if_neg (by simp [hslash]), if_pos hc]

theorem run_eq_length {p : Char → Bool} (h : ∀ d ∈ cs, p d = true) : run p cs = cs.length := by
  rw [run, takeWhile_eq_self_iff.2 (by simpa using h)]

/-- **A word ends in front of a character that it cannot go on with.** -/
theorem cuts_word {s : String} (h : IsWord s) (hd : Avoids isWordPart ds) :
    Cuts s.toList [(wordKind s, s)] ds := by
  obtain ⟨c, cs, hs, hc, hcs⟩ := h
  have hlen : run isWordPart (cs ++ ds) = cs.length := by
    rw [run_append_of_avoids hd, run_eq_length hcs]
  have hclass : classify c (cs ++ ds) = (.token (wordKind s) s, cs.length) := by
    rw [classify_word hc, hlen, take_left, plain, take_left, ← hs, String.ofList_toList]
  rw [hs]
  refine cuts_of_classify hclass rfl ?_
  rw [mem_cons, not_or]
  refine ⟨?_, fun hr => ?_⟩
  · rintro rfl
    exact absurd hc (by decide)
  · exact absurd (hcs _ hr) (by decide)

/-! ### Numbers -/

/-- The text starts like a number. -/
def startsNumber (c : Char) (cs : List Char) : Bool := isDigit c || (c = '.' && cs.head?.any isDigit)

/-- The text is a number from its first to its last character. -/
def IsNumber (s : String) : Prop :=
  ∃ c cs, s.toList = c :: cs ∧ startsNumber c cs = true ∧ numberLength (c :: cs) = cs.length + 1

theorem mem_take_run {p : Char → Bool} {d : Char} (h : d ∈ cs.take (run p cs)) : p d = true := by
  rw [run, ← prefix_iff_eq_take.1 ( takeWhile_prefix p)] at h
  exact mem_takeWhile_imp h

theorem isNumeric_of_isDigit {d : Char} (h : isDigit d = true) : isNumeric d = true := by
  rw [isNumeric, h, Bool.true_or]

theorem isNumeric_of_mem_fraction {d : Char} (h : d ∈ cs.take (fractionLength cs)) :
    isNumeric d = true := by
  cases cs with
  | nil => simp at h
  | cons c cs =>
    by_cases hc : c = '.'
    · subst hc
      rw [fractionLength, Nat.add_comm, take_succ_cons] at h
      rcases mem_cons.1 h with rfl | h
      · rfl
      · exact isNumeric_of_isDigit (mem_take_run h)
    · rw [fractionLength_eq_zero hc] at h
      simp at h

theorem isNumeric_of_mem_exponent {d : Char} (h : d ∈ cs.take (exponentLength cs)) :
    isNumeric d = true := by
  have he (e : Char) (he : (e = 'e' || e = 'E') = true) : isNumeric e = true := by
    rw [Bool.or_eq_true, decide_eq_true_iff, decide_eq_true_iff] at he
    rcases he with rfl | rfl <;> rfl
  revert h
  fun_cases exponentLength cs with
  | case1 e hmark x xs hx =>
    intro h
    rw [Nat.add_comm, take_succ_cons] at h
    rcases mem_cons.1 h with rfl | h
    · exact he d hmark
    · exact isNumeric_of_isDigit (mem_take_run h)
  | case2 e hmark x xs hx hsign =>
    intro h
    rw [Nat.add_comm, take_succ_cons, take_succ_cons] at h
    rcases mem_cons.1 h with rfl | h
    · exact he d hmark
    rcases mem_cons.1 h with rfl | h
    · rw [Bool.and_eq_true, Bool.or_eq_true, decide_eq_true_iff, decide_eq_true_iff] at hsign
      rcases hsign.1 with rfl | rfl <;> rfl
    · exact isNumeric_of_isDigit (mem_take_run h)
  | _ => simp

theorem isNumeric_of_mem_number {d : Char} (h : d ∈ cs.take (numberLength cs)) :
    isNumeric d = true := by
  unfold numberLength at h
  dsimp only at h
  rw [take_add, take_add] at h
  rcases mem_append.1 h with h | h
  · rcases mem_append.1 h with h | h
    · exact isNumeric_of_isDigit (mem_take_run h)
    · exact isNumeric_of_mem_fraction h
  · exact isNumeric_of_mem_exponent h

theorem isWordStart_of_isDigit (h : isDigit c = true) : isWordStart c = false := by
  simp only [isDigit, Bool.and_eq_true, decide_eq_true_eq, Char.le_def, UInt32.le_iff_toNat_le] at h
  have hne : c ≠ '_' := by
    rintro rfl
    exact absurd h (by decide)
  simp only [isWordStart, hne, decide_false, Bool.or_false, Bool.or_eq_false_iff,
    Bool.and_eq_false_iff, decide_eq_false_iff_not, Char.le_def, UInt32.le_iff_toNat_le]
  have h9 : '9'.val.toNat = 57 := rfl
  have ha : 'a'.val.toNat = 97 := rfl
  have hA : 'A'.val.toNat = 65 := rfl
  omega

theorem classify_number (hc : startsNumber c cs = true) :
    classify c cs = plain .number c cs (numberLength (c :: cs) - 1) := by
  have hcases : isDigit c = true ∨ c = '.' := by
    unfold startsNumber at hc
    rw [Bool.or_eq_true, Bool.and_eq_true, decide_eq_true_iff] at hc
    exact hc.imp id And.left
  have hne (d : Char) (hd : isDigit d = false) (hd' : d ≠ '.') : c ≠ d := by
    rintro rfl
    rcases hcases with h | h
    · rw [hd] at h
      cases h
    · exact hd' h
  have hslash := hne '/' (by decide) (by decide)
  have hblank : Source.isBlank c = false := by
    simp [Source.isBlank, hne ' ' (by decide) (by decide), hne '\t' (by decide) (by decide)]
  have hword : isWordStart c = false := by
    rcases hcases with h | rfl
    · exact isWordStart_of_isDigit h
    · rfl
  unfold classify
  rw [if_neg (hne '\n' (by decide) (by decide)), if_neg (by simp [hblank]), if_neg (by simp [hslash]),
    if_neg (by simp [hslash]), if_neg (by simp [hword])]
  exact if_pos hc

/-- **A number ends in front of a character that it cannot go on with.** -/
theorem cuts_number {s : String} (h : IsNumber s) (hd : Avoids isNumeric ds) :
    Cuts s.toList [(.number, s)] ds := by
  obtain ⟨c, cs, hs, hc, hlen⟩ := h
  have hc' : startsNumber c (cs ++ ds) = true := by
    cases cs with
    | nil =>
      have hdigit : isDigit c = true := by simpa [startsNumber] using hc
      rw [startsNumber, hdigit, Bool.true_or]
    | cons d cs => exact hc
  have hclass : classify c (cs ++ ds) = (.token .number s, cs.length) := by
    rw [classify_number hc', ← cons_append, numberLength_append_of_avoids hd, hlen, plain,
      Nat.add_sub_cancel, take_left, ← hs, String.ofList_toList]
  rw [hs]
  refine cuts_of_classify hclass rfl fun hr => ?_
  have hmem : '\r' ∈ (c :: cs).take (numberLength (c :: cs)) := by
    rw [hlen, take_of_length_le (by simp)]
    exact hr
  exact absurd (isNumeric_of_mem_number hmem) (by decide)

/-! ### Colors -/

/-- The mark of a color, followed by hexadecimal digits. -/
def IsColor (s : String) : Prop :=
  ∃ cs, s.toList = '#' :: cs ∧ cs ≠ [] ∧ ∀ d ∈ cs, isHex d = true

/-- **A color ends in front of a character that is no hexadecimal digit.** -/
theorem cuts_color {s : String} (h : IsColor s) (hd : Avoids isHex ds) :
    Cuts s.toList [(.color, s)] ds := by
  obtain ⟨cs, hs, hne, hcs⟩ := h
  have hlen : run isHex (cs ++ ds) = cs.length := by
    rw [run_append_of_avoids hd, run_eq_length hcs]
  have hpos : cs.length ≠ 0 := fun h => hne (length_eq_zero_iff.1 h)
  have hclass : classify '#' (cs ++ ds) = (.token .color s, cs.length) := by
    unfold classify
    rw [if_neg (by decide), if_neg (by decide), if_neg (by simp), if_neg (by simp),
      if_neg (by decide), if_neg (by simp; decide), if_neg (by decide), if_pos rfl, hlen]
    split
    · next h => exact absurd h hpos
    · rw [plain, take_left, ← hs, String.ofList_toList]
  rw [hs]
  refine cuts_of_classify hclass rfl fun hr => ?_
  rcases mem_cons.1 hr with h | h
  · exact absurd h (by decide)
  · exact absurd (hcs _ h) (by decide)

/-! ### Strings -/

/-- The printable characters of ASCII. -/
def isAscii (c : Char) : Bool := 32 ≤ c.toNat && c.toNat < 127

theorem isPrintable_of_isAscii (h : isAscii c = true) : Text.isPrintable c = true := by
  rw [isAscii, Bool.and_eq_true, decide_eq_true_iff, decide_eq_true_iff] at h
  have hruns : Text.inRuns Text.basicRuns c.toNat = true := by
    rw [Text.basicRuns, Text.inRuns, if_neg (by omega), decide_eq_true (by omega), Bool.true_or]
  rw [Text.isPrintable, hruns]
  rfl

/-- A double quote starts a string that is closed. -/
theorem classify_quote {value : List Char} {n : Nat} (h : stringRest '"' cs = some (value, n)) :
    classify '"' cs = (.token .string (String.ofList value), n) := by
  unfold classify
  rw [if_neg (by decide), if_neg (by decide), if_neg (by simp), if_neg (by simp),
    if_neg (by decide), if_neg (by simp; decide), if_pos (by decide), h]

/-- The escaped characters of a string are read back up to the closing mark. -/
theorem stringRest_escapeChar (ds : List Char) : (value : List Char) →
    (∀ c ∈ value, isAscii c = true) →
    stringRest '"' (value.flatMap (Text.escapeChar '"') ++ '"' :: ds) =
      some (value, (value.flatMap (Text.escapeChar '"')).length + 1)
  | [], _ => by
    rw [flatMap_nil, nil_append, stringRest, if_pos rfl]
    rfl
  | c :: value, h => by
    have hc := h c (mem_cons_self ..)
    have ih := stringRest_escapeChar ds value fun d hd => h d (mem_cons_of_mem c hd)
    rw [flatMap_cons, append_assoc, Text.escapeChar]
    generalize value.flatMap (Text.escapeChar '"') = body at ih
    by_cases hmark : c = '"' ∨ c = '\\'
    · -- the mark and the backslash stand behind a backslash
      have hescape : escape (c :: (body ++ '"' :: ds)) = some (some c, 1) := by
        rcases hmark with rfl | rfl <;> rfl
      rw [if_pos (by simpa using hmark), List.cons_append, List.singleton_append, stringRest,
        if_neg (by decide), if_neg (by decide), if_pos rfl, hescape]
      simp [ih]
    · rw [not_or] at hmark
      have hnewline : c ≠ '\n' := by
        rintro rfl
        exact absurd hc (by decide)
      rw [if_neg (by simpa using hmark), if_pos (isPrintable_of_isAscii hc), List.singleton_append,
        stringRest, if_neg hmark.1, if_neg hnewline, if_neg hmark.2, ih]
      simp

theorem isAscii_of_mem_escapeChar {d : Char} (hc : isAscii c = true)
    (hd : d ∈ Text.escapeChar '"' c) : isAscii d = true := by
  unfold Text.escapeChar at hd
  split at hd
  · rcases mem_cons.1 hd with rfl | hd
    · rfl
    · rw [mem_singleton.1 hd]
      exact hc
  · rw [if_pos (isPrintable_of_isAscii hc)] at hd
    rw [mem_singleton.1 hd]
    exact hc

/-- **A quoted string ends with its closing mark.** -/
theorem cuts_quote {value : String} (h : ∀ c ∈ value.toList, isAscii c = true) (ds : List Char) :
    Cuts (Text.quote value).toList [(.string, value)] ds := by
  rw [Text.quote, String.toList_ofList, cons_append]
  have hclass : classify '"' (value.toList.flatMap (Text.escapeChar '"') ++ ['"'] ++ ds) =
      (.token .string value, (value.toList.flatMap (Text.escapeChar '"') ++ ['"']).length) := by
    rw [List.append_assoc, List.singleton_append, classify_quote (stringRest_escapeChar ds _ h)]
    simp
  refine cuts_of_classify hclass rfl fun hr => ?_
  rcases List.mem_cons.1 hr with hr | hr
  · exact absurd hr (by decide)
  rcases List.mem_append.1 hr with hr | hr
  · obtain ⟨c, hc, hr⟩ := List.mem_flatMap.1 hr
    exact absurd (isAscii_of_mem_escapeChar (h c hc) hr) (by decide)
  · exact absurd (List.mem_singleton.1 hr) (by decide)

/-! ### Operators, punctuation and blanks -/

/-- No character makes a longer operator or a comment of the operator in front of it. -/
def endsOperator (op : String) (c : Char) : Bool :=
  c ≠ '=' && c ≠ '/' && c ≠ '*' && (c ≠ '>' || op ≠ "=")

theorem operator?_append_of_ends {op : String} (hop : op ∈ operators)
    (hd : ∀ d ∈ ds.head?, endsOperator op d = true) : operator? (op.toList ++ ds) = some op := by
  cases ds with
  | nil =>
    have hall : ∀ op ∈ operators, operator? (op.toList ++ []) = some op := by decide
    exact hall op hop
  | cons d ds =>
    -- an operator that fits and is not the given one would be the given one with `d` behind it
    have hlong : ∀ o ∈ operators, ∀ op ∈ operators, o.toList.length ≤ 2 ∧ op.toList ≠ [] ∧
        o.toList.getLast?.all (fun x => o.toList = op.toList ++ [x] → endsOperator op x = false) =
          true := by
      decide
    have hsame : ∀ o ∈ operators,
        o.toList.isPrefixOf (op.toList ++ d :: ds) = o.toList.isPrefixOf (op.toList ++ [' ']) := by
      intro o ho
      obtain ⟨hlen, hne, hlast⟩ := hlong o ho op hop
      have hends (x : Char) (hx : endsOperator op x = true) : o.toList ≠ op.toList ++ [x] := by
        intro heq
        have hshort := (Option.all_eq_true _ _).1 hlast x (by simp [heq])
        rw [of_decide_eq_true hshort heq] at hx
        cases hx
      have hd := hends d (hd d rfl)
      have hblank := hends ' ' (by simp [endsOperator])
      generalize o.toList = os at hlen hd hblank
      generalize op.toList = ops at hne hd hblank
      match os, ops, hlen, hne with
      | [], _ :: _, _, _ | [_], _ :: _, _, _ | [_, _], _ :: _ :: _, _, _ => rfl
      | [a, b], [y], _, _ =>
        simp only [List.cons_append, List.nil_append, ne_eq, List.cons.injEq, and_true] at hd hblank
        simp only [List.cons_append, List.nil_append, List.isPrefixOf, Bool.and_true]
        by_cases ha : a = y
        · have hbd : b ≠ d := fun h => hd ⟨ha, h⟩
          have hbb : b ≠ ' ' := fun h => hblank ⟨ha, h⟩
          rw [beq_false_of_ne hbd, beq_false_of_ne hbb]
        · rw [beq_false_of_ne ha, Bool.false_and, Bool.false_and]
    have hall : ∀ op ∈ operators, operator? (op.toList ++ [' ']) = some op := by decide
    rw [← hall op hop, operator?, operator?, ← List.head?_filter, ← List.head?_filter]
    exact congrArg _ (List.filter_congr hsame)

theorem classify_of_symbol (hw : isWordStart c = false) (hn : startsNumber c cs = false)
    (hs : c ∉ ['\n', ' ', '\t', '"', '\'', '#']) (hslash : c = '/' → Avoids ['/', '*'].contains cs) :
    classify c cs = match operator? (c :: cs) with
      | some op => (.token .operator op, op.length - 1)
      | none =>
        match punctuation? c with
        | some kind => plain kind c cs 0
        | none => (.fault (.stray c), cs.length) := by
  simp only [mem_cons, not_mem_nil, or_false, not_or] at hs
  obtain ⟨h₁, h₂, h₃, h₄, h₅, h₆⟩ := hs
  have hcomment (d : Char) (hd : ['/', '*'].contains d = true) : ¬(c = '/' ∧ cs.head? = some d) := by
    rintro ⟨hc, hhead⟩
    rw [hslash hc d hhead] at hd
    cases hd
  unfold classify
  rw [if_neg h₁, if_neg (by simp [Source.isBlank, h₂, h₃]), if_neg (by simpa using hcomment '/' rfl),
    if_neg (by simpa using hcomment '*' rfl), if_neg (by simp [hw]),
    if_neg (by rw [← startsNumber, hn]; simp), if_neg (by simp [h₄, h₅])]
  exact if_neg h₆

/-- **An operator ends in front of a character that makes nothing else of it.** -/
theorem cuts_operator (op : String) (hop : op ∈ operators)
    (hd : ∀ d ∈ ds.head?, endsOperator op d = true) : Cuts op.toList [Word.op op] ds := by
  have hall : ∀ op ∈ operators, '\r' ∉ op.toList ∧ op.toList.head?.any (fun c =>
      isWordStart c = false ∧ isDigit c = false ∧ c ∉ ['\n', ' ', '\t', '"', '\'', '#', '.'] ∧
        (c = '/' → op.toList.tail.head?.all (fun d => d ≠ '/' ∧ d ≠ '*') = true)) = true := by
    decide
  obtain ⟨hr, hhead⟩ := hall op hop
  obtain ⟨c, hc, hfacts⟩ := (Option.any_eq_true _ _).1 hhead
  obtain ⟨hword, hdigit, hmem, hslash⟩ := of_decide_eq_true hfacts
  obtain ⟨cs, hs⟩ := List.head?_eq_some_iff.1 hc
  have hfits := operator?_append_of_ends hop hd
  rw [hs, List.tail_cons] at hslash
  have hcomment : c = '/' → Avoids ['/', '*'].contains (cs ++ ds) := by
    intro hc d hmem
    cases cs with
    | nil =>
      have hends := hd d hmem
      simp only [endsOperator, ne_eq, Bool.and_eq_true, decide_eq_true_eq] at hends
      simp [hends.1.1.2, hends.1.2]
    | cons x cs =>
      have hd := of_decide_eq_true ((Option.all_eq_true _ _).1 (hslash hc) d hmem)
      simp [hd.1, hd.2]
  have hnumber : startsNumber c (cs ++ ds) = false := by
    have hdot : c ≠ '.' := fun h => hmem (by simp [h])
    simp [startsNumber, hdigit, hdot]
  have hsymbol : c ∉ ['\n', ' ', '\t', '"', '\'', '#'] := by
    intro h
    exact hmem (mem_append_left ['.'] h)
  rw [hs] at hfits hr ⊢
  have hclass : classify c (cs ++ ds) = (.token .operator op, cs.length) := by
    rw [cons_append] at hfits
    have hlen : op.length = cs.length + 1 := by rw [← String.length_toList, hs, length_cons]
    rw [classify_of_symbol hword hnumber hsymbol hcomment, hfits]
    simp [hlen]
  exact cuts_of_classify hclass rfl hr

theorem operator?_colon (hd : ∀ d ∈ ds.head?, d ≠ '=') : operator? (':' :: ds) = none := by
  rw [operator?, find?_eq_none]
  intro op hop hfits
  have hall : ∀ op ∈ operators, op.toList ≠ [] ∧
      (op.toList.head? = some ':' → op.toList = [':', '=']) := by decide
  obtain ⟨hne, hcolon⟩ := hall op hop
  obtain ⟨y, ys, hs⟩ := exists_cons_of_ne_nil hne
  rw [hs, isPrefixOf_cons_cons, Bool.and_eq_true, beq_iff_eq] at hfits
  obtain ⟨rfl, hys⟩ := hfits
  rw [hcolon (by rw [hs]; rfl), List.cons.injEq] at hs
  rw [← hs.2] at hys
  cases ds with
  | nil => cases hys
  | cons d ds =>
    rw [isPrefixOf_cons_cons, Bool.and_eq_true, beq_iff_eq] at hys
    exact hd d rfl hys.1.symm

/-- The marks of punctuation. -/
def marks : List Char := ['(', ')', '[', ']', '\x7b', '\x7d', ',', '.', ':']

theorem mem_marks {kind : Token.Kind} (h : punctuation? c = some kind) : c ∈ marks := by
  unfold punctuation? at h
  split at h
  all_goals first | decide | cases h

/-- **A mark of punctuation ends by itself**, unless it goes on to a number or an operator. -/
theorem cuts_punctuation {kind : Token.Kind} (h : punctuation? c = some kind)
    (hdot : c = '.' → Avoids isDigit ds) (hcolon : c = ':' → ∀ d ∈ ds.head?, d ≠ '=') :
    Cuts [c] [(kind, String.ofList [c])] ds := by
  have hall : marks.all (fun c => isWordStart c = false ∧ isDigit c = false ∧
      c ∉ ['\n', ' ', '\t', '"', '\'', '#'] ∧ c ≠ '/' ∧ '\r' ∉ [c]) = true := by decide
  obtain ⟨hword, hdigit, hsymbol, hslash, hr⟩ :=
    of_decide_eq_true (all_eq_true.1 hall c (mem_marks h))
  have hnumber : startsNumber c ds = false := by
    by_cases hc : c = '.'
    · have hhead : ds.head?.any isDigit = false := by
        cases ds with
        | nil => rfl
        | cons d ds => exact hdot hc d rfl
      rw [startsNumber, hdigit, hhead, Bool.and_false]
      rfl
    · simp [startsNumber, hdigit, hc]
  have hoperator : operator? (c :: ds) = none := by
    by_cases hc : c = ':'
    · rw [hc]
      exact operator?_colon (hcolon hc)
    · have hnone : marks.all (fun c => c ≠ ':' → ∀ op ∈ operators, op.toList.head? ≠ some c) = true := by
        decide
      exact operator?_eq_none (of_decide_eq_true (all_eq_true.1 hnone c (mem_marks h)) hc) ds
  have hclass : classify c ([] ++ ds) = (.token kind (String.ofList [c]), 0) := by
    rw [nil_append, classify_of_symbol hword hnumber hsymbol fun hc => absurd hc hslash,
      hoperator, h]
    rfl
  exact cuts_of_classify hclass rfl hr

/-- A blank ends in front of what is not blank. -/
theorem cuts_space (hd : Avoids Source.isBlank ds) : Cuts [' '] [] ds := by
  have hclass : classify ' ' ([] ++ ds) = (.blank, 0) := by
    rw [classify, if_neg (by decide), if_pos (by decide), run_append_of_avoids hd]
    rfl
  exact cuts_of_classify hclass rfl (by simp)

/-! ### Lexemes -/

/-- The text is one token by itself. -/
def Lexeme (kind : Token.Kind) (s : String) : Prop := split s.toList = [⟨.token kind s, s.toList⟩]

instance (kind : Token.Kind) (s : String) : Decidable (Lexeme kind s) :=
  inferInstanceAs (Decidable (_ = _))

section Lexeme

variable {kind : Token.Kind} {s : String}

/-- The token starts with the first character of the text and takes all others. -/
theorem Lexeme.exists_classify (h : Lexeme kind s) : ∃ c cs more, s.toList = c :: cs ∧
    cs.take more = cs ∧ classify c cs = (.token kind s, more) := by
  unfold Lexeme at h
  cases hs : s.toList with
  | nil =>
    rw [hs, split] at h
    cases h
  | cons c cs =>
    rw [hs, split] at h
    have hp := (List.cons.inj h).1
    rw [Piece.mk.injEq, List.cons.injEq] at hp
    exact ⟨c, cs, (classify c cs).2, rfl, hp.2.2, Prod.ext hp.1 rfl⟩

theorem numberLength_pos (h : startsNumber c cs = true) : 0 < numberLength (c :: cs) := by
  by_cases hc : isDigit c = true
  · have hrun : 0 < run isDigit (c :: cs) := by simp [run, hc]
    unfold numberLength
    dsimp only
    omega
  · obtain rfl : c = '.' := by
      rw [startsNumber, Bool.or_eq_true, Bool.and_eq_true, decide_eq_true_iff] at h
      exact (h.resolve_left hc).1
    have hrun : run isDigit ('.' :: cs) = 0 := by simp [run, hc]
    rw [numberLength, hrun, drop_zero, fractionLength]
    omega

/-- The kinds of strings, operators and punctuation. -/
def symbolKinds : List Token.Kind :=
  [.string, .operator, .lparen, .rparen, .lbracket, .rbracket, .lbrace, .rbrace, .comma, .dot, .colon]

theorem mem_symbolKinds (h : punctuation? c = some kind) : kind ∈ symbolKinds := by
  have hall : marks.all (fun c => (punctuation? c).all (· ∈ symbolKinds)) = true := by decide
  have hkind := (Option.all_eq_true _ _).1 (all_eq_true.1 hall c (mem_marks h)) kind h
  exact of_decide_eq_true hkind

/-- A token that is no symbol is a word, a number or a color. -/
theorem Lexeme.cases (h : Lexeme kind s) : wordKind s = kind ∧ IsWord s ∨
    kind = .number ∧ IsNumber s ∨ kind = .color ∧ IsColor s ∨ kind ∈ symbolKinds := by
  obtain ⟨c, cs, more, hs, htake, hclass⟩ := h.exists_classify
  have hlen : cs.length ≤ more := by
    have hle := length_take_le more cs
    rwa [htake] at hle
  revert hclass
  fun_cases classify c cs with
  | case6 _ _ _ _ hword =>
    intro hclass
    injection hclass with hform hmore
    injection hform with hkind hlexeme
    refine .inl ⟨hlexeme ▸ hkind, c, cs, hs, hword, fun d hd => ?_⟩
    rw [← htake, ← hmore] at hd
    exact mem_take_run hd
  | case7 _ _ _ _ _ hnumber =>
    rintro ⟨⟩
    have hle := numberLength_le (c :: cs)
    have hpos := numberLength_pos hnumber
    rw [length_cons] at hle
    exact .inr (.inl ⟨rfl, c, cs, hs, hnumber, by omega⟩)
  | case11 _ _ _ _ _ _ _ hc hpos =>
    rintro ⟨⟩
    refine .inr (.inr (.inl ⟨rfl, cs, hc ▸ hs, ?_, fun d hd => ?_⟩))
    · rintro rfl
      exact hpos rfl
    · rw [← htake] at hd
      exact mem_take_run hd
  | case13 _ _ _ _ _ _ _ _ _ _ hmark =>
    rintro ⟨⟩
    exact .inr (.inr (.inr (mem_symbolKinds hmark)))
  | case8 | case12 =>
    rintro ⟨⟩
    exact .inr (.inr (.inr (by simp [symbolKinds])))
  | _ => rintro ⟨⟩

theorem wordKind_mem (s : String) :
    wordKind s ∈ [.boolean, .na, .operator, .keyword, .identifier] := by
  unfold wordKind
  split <;> [skip; split <;> [skip; split <;> [skip; split]]]
  all_goals simp

/-- An identifier or a keyword is a word. -/
theorem Lexeme.isWord (h : Lexeme kind s) (hk : kind = .identifier ∨ kind = .keyword) :
    IsWord s ∧ wordKind s = kind := by
  rcases h.cases with h | ⟨hkind, -⟩ | ⟨hkind, -⟩ | hkind
  · exact h.symm
  all_goals exact absurd hkind (by rcases hk with rfl | rfl <;> decide)

theorem Lexeme.isNumber (h : Lexeme .number s) : IsNumber s := by
  rcases h.cases with ⟨hkind, -⟩ | ⟨-, h⟩ | ⟨hkind, -⟩ | hkind
  · exact absurd (hkind ▸ wordKind_mem s) (by decide)
  · exact h
  · cases hkind
  · exact absurd hkind (by decide)

theorem Lexeme.isColor (h : Lexeme .color s) : IsColor s := by
  rcases h.cases with ⟨hkind, -⟩ | ⟨hkind, -⟩ | ⟨-, h⟩ | hkind
  · exact absurd (hkind ▸ wordKind_mem s) (by decide)
  · cases hkind
  · exact h
  · exact absurd hkind (by decide)

end Lexeme

end Pine.Piece
