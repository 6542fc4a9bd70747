import Pine.Proofs.Grammar.Precedence
import Pine.Proofs.Token.Lexeme

/-!
# Printed expressions

The text of an expression is cut into the words of its full spelling. Neighbouring parts never run
into each other: the text of an expression starts with a character that no operator goes on with,
and what follows it is a mark that no word, number or color goes on with. The one exception is a
member of a number, since a number goes on with a dot; such an expression is not printable.
-/

namespace Pine

open Piece

/-! ### What can be printed -/

/-- Whether an expression is a number. -/
def Expr.isNumber : Expr → Bool
  | .number .. => true
  | _ => false

/-- Leaves that are single tokens, strings of printable ASCII, and type arguments that can be read
from such tokens. A number has no members. -/
def Vocabulary.printable : Vocabulary where
  number := Lexeme .number
  string := fun value => ∀ c ∈ value.toList, isAscii c = true
  color := Lexeme .color
  name := Lexeme .identifier
  label := fun s => Lexeme .identifier s ∨ Lexeme .keyword s
  object := fun e => e.isNumber = false
  types := fun texts =>
    ∃ s s', s.cursor.Names (Lexeme .identifier) ∧
      Rule.typeArgs (s.cursor.rest.length + 1) s = .ok texts s'

/-! ### Where texts start and stop -/

/-- The characters that the text of an expression can start with. -/
def opensText (c : Char) : Bool :=
  isWordStart c || isDigit c || ['.', '"', '#', '(', '['].contains c

/-- How the text of an expression can start. -/
def StartsText (s : String) : Prop := ∃ c cs, s.toList = c :: cs ∧ opensText c = true

section StartsText

variable {s : String} {ds : List Char}

theorem StartsText.append (h : StartsText s) (t : String) : StartsText (s ++ t) := by
  obtain ⟨c, cs, hs, hc⟩ := h
  exact ⟨c, cs ++ t.toList, by rw [String.toList_append, hs, List.cons_append], hc⟩

theorem StartsText.of_isWord (h : IsWord s) : StartsText s := by
  obtain ⟨c, cs, hs, hc, -⟩ := h
  exact ⟨c, cs, hs, by rw [opensText, hc, Bool.true_or, Bool.true_or]⟩

theorem StartsText.of_isNumber (h : IsNumber s) : StartsText s := by
  obtain ⟨c, cs, hs, hc, -⟩ := h
  refine ⟨c, cs, hs, ?_⟩
  rw [startsNumber, Bool.or_eq_true, Bool.and_eq_true, decide_eq_true_iff] at hc
  rcases hc with hc | ⟨rfl, -⟩
  · rw [opensText, hc, Bool.or_true, Bool.true_or]
  · rfl

theorem StartsText.head_ne (h : StartsText s) {c : Char} (hc : opensText c = false) :
    ∀ d ∈ (s.toList ++ ds).head?, d ≠ c := by
  obtain ⟨x, xs, hs, hx⟩ := h
  intro d hd
  rw [hs, List.cons_append, List.head?_cons, Option.mem_some] at hd
  rintro rfl
  rw [hd, hc] at hx
  cases hx

theorem StartsText.avoids_blank (h : StartsText s) : Avoids Source.isBlank (s.toList ++ ds) := by
  intro d hd
  simp [Source.isBlank, h.head_ne (c := ' ') rfl d hd, h.head_ne (c := '\t') rfl d hd]

theorem StartsText.endsOperator (h : StartsText s) (op : String) :
    ∀ d ∈ (s.toList ++ ds).head?, Piece.endsOperator op d = true := by
  intro d hd
  simp [Piece.endsOperator, h.head_ne (c := '=') rfl d hd, h.head_ne (c := '/') rfl d hd,
    h.head_ne (c := '*') rfl d hd, h.head_ne (c := '>') rfl d hd]

end StartsText

/-- Marks that no word, number or color goes on with. -/
def stops : List Char := [' ', '(', ')', '[', ']', ',', '<', '>']

/-- The text starts like an expression and is cut into the words wherever a mark stops it. -/
structure Part (s : String) (ws : List Word) : Prop where
  starts : StartsText s
  cuts : ∀ c ∈ stops, ∀ ds, Cuts s.toList ws (c :: ds)

section Marks

variable {c : Char} {ds : List Char}

theorem avoids_wordPart (hc : c ∈ stops) : Avoids isWordPart (c :: ds) := by
  have hall : stops.all (fun c => !isWordPart c) = true := by decide
  rintro _ ⟨⟩
  simpa using List.all_eq_true.1 hall c hc

theorem endsOperator_stop (hc : c ∈ stops) : ∀ d ∈ (c :: ds).head?, endsOperator ">" d = true := by
  have hall : stops.all (endsOperator ">") = true := by decide
  rintro _ ⟨⟩
  exact List.all_eq_true.1 hall c hc

theorem cuts_lparen (ds : List Char) : Cuts "(".toList [(.lparen, "(")] ds :=
  cuts_punctuation (c := '(') rfl (by simp) (by simp)

theorem cuts_rparen (ds : List Char) : Cuts ")".toList [(.rparen, ")")] ds :=
  cuts_punctuation (c := ')') rfl (by simp) (by simp)

theorem cuts_lbracket (ds : List Char) : Cuts "[".toList [(.lbracket, "[")] ds :=
  cuts_punctuation (c := '[') rfl (by simp) (by simp)

theorem cuts_rbracket (ds : List Char) : Cuts "]".toList [(.rbracket, "]")] ds :=
  cuts_punctuation (c := ']') rfl (by simp) (by simp)

theorem cuts_comma (hd : Avoids Source.isBlank ds) : Cuts ", ".toList [(.comma, ",")] ds :=
  (cuts_punctuation (c := ',') rfl (by simp) (by simp)).append (cuts_space hd)

theorem cuts_identifier {s : String} (h : Lexeme .identifier s) (hd : Avoids isWordPart ds) :
    Cuts s.toList [(.identifier, s)] ds := by
  obtain ⟨hword, hkind⟩ := h.isWord (.inl rfl)
  have hcuts := cuts_word hword hd
  rwa [hkind] at hcuts

/-- A dot in front of a word does not start a number. -/
theorem cuts_dot {s : String} (h : IsWord s) : Cuts ".".toList [(.dot, ".")] (s.toList ++ ds) := by
  refine cuts_punctuation (c := '.') rfl (fun _ => ?_) (by simp)
  obtain ⟨c, cs, hs, hc, -⟩ := h
  intro d hd
  rw [hs, List.cons_append, List.head?_cons, Option.mem_some] at hd
  subst hd
  by_contra hdigit
  rw [isWordStart_of_isDigit (by simpa using hdigit)] at hc
  cases hc

end Marks

/-! ### Lists -/

section Lists

variable {texts : List String} {parts : List (List Word)}

theorem StartsText.intercalate {s : String} (h : StartsText s) (texts : List String) :
    StartsText (", ".intercalate (s :: texts)) := by
  cases texts with
  | nil =>
    rw [String.intercalate_singleton]
    exact h
  | cons t texts =>
    rw [String.intercalate_cons_cons, String.append_assoc]
    exact h.append _

/-- **Parts with commas between them are cut into the words with commas between them.** -/
theorem cuts_listed (h : List.Forall₂ Part texts parts) {c : Char} (hc : c ∈ stops)
    (ds : List Char) : Cuts (", ".intercalate texts).toList (Word.listed parts) (c :: ds) := by
  induction h with
  | nil => exact Cuts.nil _
  | @cons s ws texts parts hpart hrest ih =>
    cases hrest with
    | nil =>
      rw [String.intercalate_singleton, Word.listed, List.intercalate_singleton]
      exact hpart.cuts c hc ds
    | @cons t vs texts parts hpart' hrest =>
      rw [String.intercalate_cons_cons, Word.listed, List.intercalate_cons_cons,
        String.toList_append, String.toList_append]
      refine ((hpart.cuts ',' (by decide) _).append (cuts_comma ?_)).append ih
      exact (hpart'.starts.intercalate texts).avoids_blank

end Lists

/-! ### Type names -/

section TypeNames

variable {ds : List Char}

theorem startsText_path {word : String} (h : StartsText word) (path : List String) :
    StartsText (path.foldl (fun word s => word ++ "." ++ s) word) := by
  induction path generalizing word with
  | nil => exact h
  | cons s path ih =>
    rw [List.foldl_cons, String.append_assoc]
    exact ih (h.append _)

theorem cuts_path {path : List String} (hpath : ∀ s ∈ path, Lexeme .identifier s)
    {word : String} {ws : List Word} (h : ∀ ds, Avoids isWordPart ds → Cuts word.toList ws ds)
    (hd : Avoids isWordPart ds) :
    Cuts (path.foldl (fun word s => word ++ "." ++ s) word).toList (ws ++ Word.steps path) ds := by
  induction path generalizing word ws with
  | nil =>
    rw [List.foldl_nil, Word.steps, List.flatMap_nil, List.append_nil]
    exact h ds hd
  | cons s path ih =>
    have hs := hpath s (List.mem_cons_self ..)
    have hstep (ds : List Char) (hd : Avoids isWordPart ds) :
        Cuts (word ++ "." ++ s).toList (ws ++ [(.dot, ".")] ++ [(.identifier, s)]) ds := by
      rw [String.toList_append, String.toList_append]
      refine ((h _ ?_).append (cuts_dot (hs.isWord (.inl rfl)).1)).append (cuts_identifier hs hd)
      rintro _ ⟨⟩
      rfl
    have hrest := ih (fun t ht => hpath t (List.mem_cons_of_mem s ht)) hstep
    rw [List.append_assoc, List.append_assoc] at hrest
    exact hrest

theorem toList_angled (texts : List String) :
    (Grammar.angled texts).toList = '<' :: (", ".intercalate texts ++ ">").toList := by
  rw [Grammar.angled, String.append_assoc, String.toList_append]
  rfl

/-- Parts between angle brackets. -/
theorem cuts_angled {texts : List String} {parts : List (List Word)}
    (h : List.Forall₂ Part texts parts) (hne : texts ≠ [])
    (hd : ∀ d ∈ ds.head?, endsOperator ">" d = true) :
    Cuts (Grammar.angled texts).toList (Word.angled (Word.listed parts)) ds := by
  have hstarts : StartsText (", ".intercalate texts) := by
    cases h with
    | nil => exact absurd rfl hne
    | @cons s ws texts parts hpart _ => exact hpart.starts.intercalate texts
  rw [Grammar.angled, String.toList_append, String.toList_append]
  refine ((cuts_operator "<" (by decide) ?_).append
    (cuts_listed h (c := '>') (by decide) ds)).append (cuts_operator ">" (by decide) hd)
  exact hstarts.endsOperator "<"

mutual

theorem TypeName.part : (name : TypeName) → name.Over (Lexeme .identifier) →
    Part name.text name.spell
  | .mk head path args, h => by
    obtain ⟨⟨hhead, hpath⟩, hargs⟩ := h
    have hword := (hhead.isWord (.inl rfl)).1
    rw [TypeName.text, TypeName.spell]
    refine ⟨(startsText_path (.of_isWord hword) path).append _, fun c hc ds => ?_⟩
    rw [String.toList_append]
    have hcuts (ds : List Char) (hd : Avoids isWordPart ds) :=
      cuts_path hpath (fun _ => cuts_identifier hhead) hd
    cases args with
    | nil => exact (hcuts _ (avoids_wordPart hc)).append (.nil _)
    | cons arg args =>
      have hangled : Cuts (Grammar.angled (typeTexts (arg :: args))).toList
          (Word.angled (Word.listed (spellTypes (arg :: args)))) (c :: ds) :=
        cuts_angled (parts_types (arg :: args) hargs) (by simp [typeTexts]) (endsOperator_stop hc)
      rw [if_neg (by simp), if_neg (by simp)]
      refine (hcuts _ ?_).append hangled
      rw [toList_angled]
      rintro _ ⟨⟩
      rfl

theorem parts_types : (names : List TypeName) → TypesOver (Lexeme .identifier) names →
    List.Forall₂ Part (typeTexts names) (spellTypes names)
  | [], _ => .nil
  | name :: names, h => .cons (TypeName.part name h.1) (parts_types names h.2)

end

theorem Piece.Cuts.words_eq {cs : List Char} {ws : List Word} (h : Cuts cs ws []) : words cs = ws := by
  obtain ⟨-, ps, hs, hw, -⟩ := h
  rw [split, List.append_nil, List.append_nil] at hs
  rw [words, hs, hw]

/-- Printable type arguments are the texts of type names over single tokens. -/
theorem exists_typeNames {texts : List String} (h : Vocabulary.printable.types texts) :
    ∃ names, names ≠ [] ∧ TypesOver (Lexeme .identifier) names ∧ texts = typeTexts names := by
  obtain ⟨⟨c, depth, limit⟩, s', hc, hok⟩ := h
  have hlt : c.ahead < c.ahead + 1 := Nat.lt_succ_self _
  have hrun := (Rule.at_typeArgs (L := Rule.Free) _ _ c hlt hlt).agrees ⟨depth, limit⟩
  rw [hok] at hrun
  cases htypes : Grammar.typeArgs (c.ahead + 1) c with
  | error e c' =>
    rw [htypes] at hrun
    cases hrun
  | ok names c' =>
    rw [htypes] at hrun
    cases hrun
    exact Grammar.typeArgs_names _ c hc texts c' htypes

theorem cuts_types {names : List TypeName} (h : TypesOver (Lexeme .identifier) names)
    (hne : names ≠ []) (hd : ∀ d ∈ ds.head?, endsOperator ">" d = true) :
    Cuts (Grammar.angled (typeTexts names)).toList (Word.angled (Word.listed (spellTypes names)))
      ds := by
  refine cuts_angled (parts_types names h) ?_ hd
  cases names with
  | nil => exact absurd rfl hne
  | cons name names => simp [typeTexts]

/-- Printable type arguments are spelled as type names. -/
theorem spellsTypes_of_printable {texts : List String} (h : Vocabulary.printable.types texts) :
    Grammar.SpellsTypes texts := by
  obtain ⟨names, hne, hnames, rfl⟩ := exists_typeNames h
  exact ⟨names, hne, rfl, (cuts_types hnames hne (by simp)).words_eq⟩

theorem cuts_typeArgs {texts : List String} (h : Vocabulary.printable.types texts) :
    Cuts (Grammar.angled texts).toList (words (Grammar.angled texts).toList) ('(' :: ds) := by
  obtain ⟨names, hne, hnames, rfl⟩ := exists_typeNames h
  rw [(cuts_types hnames hne (by simp)).words_eq]
  exact cuts_types hnames hne (endsOperator_stop (by decide))

end TypeNames

/-! ### Expressions -/

/-- What may follow the text of an expression: a mark, or the dot in front of a member. A number
goes on with a dot. -/
def Expr.EndsAt (e : Expr) (ds : List Char) : Prop :=
  ∀ d ∈ ds.head?, d ∈ stops ∨ e.isNumber = false ∧ d = '.'

section Leaves

variable {e : Expr} {s : String} {ds : List Char}

theorem Expr.endsAt_stop (e : Expr) {c : Char} (hc : c ∈ stops) : e.EndsAt (c :: ds) := by
  rintro _ ⟨⟩
  exact .inl hc

theorem Expr.EndsAt.avoids {p : Char → Bool} (h : e.EndsAt ds)
    (hp : ('.' :: stops).all (fun c => !p c) = true) : Avoids p ds := by
  intro d hd
  have hmem : d ∈ '.' :: stops := by
    rcases h d hd with hd | ⟨-, rfl⟩
    · exact List.mem_cons_of_mem '.' hd
    · exact List.mem_cons_self ..
  simpa using List.all_eq_true.1 hp d hmem

theorem Expr.EndsAt.avoids_of_isNumber {p : Char → Bool} (h : e.EndsAt ds)
    (he : e.isNumber = true) (hp : stops.all (fun c => !p c) = true) : Avoids p ds := by
  intro d hd
  rcases h d hd with hd | ⟨hn, -⟩
  · simpa using List.all_eq_true.1 hp d hd
  · rw [he] at hn
    cases hn

/-- A word of a fixed kind. -/
theorem cuts_wordOf {kind : Token.Kind} (h : IsWord s) (hk : wordKind s = kind)
    (hd : Avoids isWordPart ds) : Cuts s.toList [(kind, s)] ds := by
  rw [← hk]
  exact cuts_word h hd

theorem isWord_of_all {c : Char} {cs : List Char} (hs : s.toList = c :: cs)
    (hc : isWordStart c = true) (hcs : cs.all isWordPart = true) : IsWord s :=
  ⟨c, cs, hs, hc, List.all_eq_true.1 hcs⟩

theorem isWord_true : IsWord "true" := isWord_of_all rfl rfl rfl

theorem isWord_false : IsWord "false" := isWord_of_all rfl rfl rfl

theorem isWord_na : IsWord "na" := isWord_of_all rfl rfl rfl

theorem isWord_label (h : Vocabulary.printable.label s) : IsWord s :=
  h.elim (fun h => (h.isWord (.inl rfl)).1) fun h => (h.isWord (.inr rfl)).1

/-- A label is a keyword or an identifier, as its word says. -/
theorem wordKind_label (h : Vocabulary.printable.label s) : (wordKind s, s) = Word.label s := by
  have hkind : wordKind s = .identifier ∨ wordKind s = .keyword :=
    h.imp (fun h => (h.isWord (.inl rfl)).2) fun h => (h.isWord (.inr rfl)).2
  unfold wordKind at hkind
  rw [Word.label, wordKind]
  split at hkind
  · simp at hkind
  split at hkind
  · simp at hkind
  split at hkind
  · simp at hkind
  · simp [*]

theorem cuts_label (h : Vocabulary.printable.label s) (hd : Avoids isWordPart ds) :
    Cuts s.toList [Word.label s] ds := by
  rw [← wordKind_label h]
  exact cuts_word (isWord_label h) hd

theorem isWordStart_of_isBlank {c : Char} (h : Source.isBlank c = true) : isWordStart c = false := by
  rw [Source.isBlank, Bool.or_eq_true, decide_eq_true_iff, decide_eq_true_iff] at h
  rcases h with rfl | rfl <;> rfl

/-- The spelling is an operator of symbols or of letters. -/
def IsOperator (op : String) : Prop := op ∈ operators ∨ IsWord op ∧ wordKind op = .operator

theorem IsOperator.avoids_blank {op : String} (h : IsOperator op) :
    Avoids Source.isBlank (op.toList ++ ds) := by
  rcases h with h | ⟨⟨c, cs, hs, hc, -⟩, -⟩
  · have hall : ∀ op ∈ operators, op.toList.head?.any (fun c => !Source.isBlank c) = true := by
      decide
    obtain ⟨c, hc, hb⟩ := (Option.any_eq_true _ _).1 (hall op h)
    obtain ⟨cs, hs⟩ := List.head?_eq_some_iff.1 hc
    rw [hs]
    rintro _ ⟨⟩
    simpa using hb
  · rw [hs]
    rintro _ ⟨⟩
    by_contra hb
    rw [isWordStart_of_isBlank (by simpa using hb)] at hc
    cases hc

theorem IsOperator.cuts {op : String} (h : IsOperator op) :
    Cuts op.toList [Word.op op] (' ' :: ds) := by
  rcases h with h | ⟨hword, hkind⟩
  · refine cuts_operator op h ?_
    rintro _ ⟨⟩
    simp [endsOperator]
  · exact cuts_wordOf hword hkind (avoids_wordPart (by decide))

/-- An operator between two operands, with a blank on both sides. -/
theorem cuts_spaced {op : String} (h : IsOperator op) (hd : Avoids Source.isBlank ds) :
    Cuts (' ' :: op.toList ++ [' ']) [Word.op op] ds := by
  have hfirst : Cuts [' '] [] (op.toList ++ ([' '] ++ ds)) := cuts_space h.avoids_blank
  have hcuts : Cuts (op.toList ++ [' ']) [Word.op op] ds := h.cuts.append (cuts_space hd)
  rw [← List.append_assoc] at hfirst
  exact hfirst.append hcuts

end Leaves

theorem Expr.startsText : (e : Expr) → e.Over .printable → StartsText e.text
  | .number .., h => .of_isNumber h.isNumber
  | .string .., _ => by
    rw [text, Text.quote]
    exact ⟨'"', _, by rw [String.toList_ofList, List.cons_append], rfl⟩
  | .bool _ value, _ => by
    rw [text]
    cases value
    · exact .of_isWord isWord_false
    · exact .of_isWord isWord_true
  | .na _, _ => by
    rw [text]
    exact .of_isWord isWord_na
  | .color .., h => by
    obtain ⟨cs, hs, -⟩ := Lexeme.isColor h
    exact ⟨'#', cs, hs, rfl⟩
  | .name .., h => .of_isWord (Lexeme.isWord h (.inl rfl)).1
  | .member _ object _, h => by
    rw [text, String.append_assoc]
    exact (startsText object h.1).append _
  | .index _ object _, h => by
    rw [text, String.append_assoc, String.append_assoc]
    exact (startsText object h.1).append _
  | .call _ _ callee _ _, h => by
    rw [text, String.append_assoc, String.append_assoc, String.append_assoc]
    exact (startsText callee h.2.1).append _
  | .binary .., _ => by
    rw [text]
    simp only [String.append_assoc]
    exact StartsText.append ⟨'(', [], rfl, rfl⟩ _
  | .unary .., _ => by
    rw [text]
    split
    · simp only [String.append_assoc]
      exact StartsText.append ⟨'(', "not ".toList, rfl, rfl⟩ _
    · simp only [String.append_assoc]
      exact StartsText.append ⟨'(', [], rfl, rfl⟩ _
  | .ternary .., _ => by
    rw [text]
    simp only [String.append_assoc]
    exact StartsText.append ⟨'(', [], rfl, rfl⟩ _
  | .array .., _ => by
    rw [text, bracketed, String.append_assoc]
    exact StartsText.append ⟨'[', [], rfl, rfl⟩ _

theorem isOperator_binary {op : BinaryOp} (h : op ∈ BinaryOp.known) : IsOperator op.spelling := by
  have hall : ∀ op ∈ BinaryOp.known,
      op.spelling ∈ operators ∨ op.spelling = "or" ∨ op.spelling = "and" := by decide
  rcases hall op h with h | h | h
  · exact .inl h
  · rw [h]
    exact .inr ⟨isWord_of_all rfl rfl rfl, by decide⟩
  · rw [h]
    exact .inr ⟨isWord_of_all rfl rfl rfl, by decide⟩

theorem isOperator_not : IsOperator "not" :=
  .inr ⟨isWord_of_all rfl rfl rfl, by decide⟩

/-- The words of the text of an expression. -/
def Expr.words (e : Expr) : List Word := e.operand true 0 (e.spell true)

theorem Expr.words_of_tight {e : Expr} (h : e.prec = 8) : e.words = e.spell true := by
  rw [words, operand, if_pos rfl, if_neg (by rw [h]; simp)]

theorem Expr.words_of_loose {e : Expr} (h : e.prec < 8) : e.words = Word.grouped (e.spell true) := by
  rw [words, operand, if_pos rfl, if_pos h]

theorem Expr.operand_words (e : Expr) (demand : Nat) :
    e.operand true demand (e.spell true) = e.words := rfl

/-- Words in parentheses. -/
theorem cuts_grouped {cs ds : List Char} {ws : List Word} (h : Cuts cs ws (')' :: ds)) :
    Cuts ('(' :: cs ++ [')']) (Word.grouped ws) ds :=
  ((cuts_lparen _).append h).append (cuts_rparen ds)

/-- Words in brackets. -/
theorem cuts_bracketed {cs ds : List Char} {ws : List Word} (h : Cuts cs ws (']' :: ds)) :
    Cuts ('[' :: cs ++ [']']) ((.lbracket, "[") :: ws ++ [(.rbracket, "]")]) ds :=
  ((cuts_lbracket _).append h).append (cuts_rbracket ds)

section Forms

variable {ds : List Char}

/-- The text of the expression is cut into its words in front of what may follow it. -/
def Expr.IsCut (e : Expr) : Prop := ∀ ds, e.EndsAt ds → Cuts e.text.toList e.words ds

theorem Expr.IsCut.before {e : Expr} (h : e.IsCut) {c : Char} (hc : c ∈ stops) (ds : List Char) :
    Cuts e.text.toList e.words (c :: ds) := h _ (e.endsAt_stop hc)

theorem Expr.isCut_member {pos : Pos} {object : Expr} {property : String} (h : object.IsCut)
    (hn : object.isNumber = false) (hp : Vocabulary.printable.label property) :
    (Expr.member pos object property).IsCut := by
  intro ds hd
  have hobject : Cuts object.text.toList object.words ('.' :: (property.toList ++ ds)) := by
    refine h _ ?_
    rintro _ ⟨⟩
    exact .inr ⟨hn, rfl⟩
  have hname := cuts_label hp (hd.avoids (by decide))
  have hcuts := (hobject.append (cuts_dot (isWord_label hp))).append hname
  rw [words_of_tight rfl, spell, operand_words]
  simpa [text] using hcuts

theorem Expr.isCut_index {pos : Pos} {object offset : Expr} (h : object.IsCut)
    (ho : offset.IsCut) : (Expr.index pos object offset).IsCut := by
  intro ds _
  have hobject : Cuts object.text.toList object.words ('[' :: offset.text.toList ++ [']'] ++ ds) :=
    h.before (by decide) _
  have hcuts := hobject.append (cuts_bracketed (ho.before (by decide) ds))
  rw [words_of_tight rfl, spell, operand_words, operand_words]
  simpa [text] using hcuts

theorem Expr.isCut_binary {pos : Pos} {op : BinaryOp} (hop : op ∈ BinaryOp.known)
    {left right : Expr} (hl : left.IsCut) (hr : right.IsCut) (hs : StartsText right.text) :
    (Expr.binary pos op left right).IsCut := by
  intro ds _
  have hright : Cuts right.text.toList right.words (')' :: ds) := hr.before (by decide) ds
  have hmid : Cuts _ [Word.op op.spelling] (right.text.toList ++ ')' :: ds) :=
    cuts_spaced (isOperator_binary hop) hs.avoids_blank
  have hcuts := cuts_grouped (((hl.before (by decide) _).append hmid).append hright)
  have hprec : (Expr.binary pos op left right).prec < 8 := Nat.lt_succ_of_lt op.level_lt
  rw [words_of_loose hprec, spell, operand_words, operand_words]
  simpa [text] using hcuts

theorem Expr.isCut_unary {pos : Pos} {op : UnaryOp} (hop : op ∈ UnaryOp.known) {operand : Expr}
    (h : operand.IsCut) (hs : StartsText operand.text) : (Expr.unary pos op operand).IsCut := by
  intro ds _
  have hlast : Cuts operand.text.toList operand.words (')' :: ds) := h.before (by decide) ds
  have hprec : (Expr.unary pos op operand).prec < 8 := by simp [prec]
  rw [words_of_loose hprec, spell, operand_words, text]
  split
  · next hnot =>
    -- a blank stands after an operator of letters
    have hfirst : Cuts "not".toList [Word.op "not"] (' ' :: (operand.text.toList ++ ')' :: ds)) :=
      isOperator_not.cuts
    have hcuts := cuts_grouped ((hfirst.append (cuts_space hs.avoids_blank)).append hlast)
    rw [hnot]
    simpa [UnaryOp.spelling] using hcuts
  · next hnot =>
    have hall : ∀ op ∈ UnaryOp.known, op ≠ .not → op.spelling ∈ operators := by decide
    have hfirst : Cuts op.spelling.toList _ (operand.text.toList ++ ')' :: ds) :=
      cuts_operator op.spelling (hall op hop hnot) (hs.endsOperator op.spelling)
    have hcuts := cuts_grouped (hfirst.append hlast)
    simpa using hcuts

theorem Expr.isCut_ternary {pos : Pos} {cond yes no : Expr} (hc : cond.IsCut) (hy : yes.IsCut)
    (hn : no.IsCut) (hsy : StartsText yes.text) (hsn : StartsText no.text) :
    (Expr.ternary pos cond yes no).IsCut := by
  intro ds _
  have hno : Cuts no.text.toList no.words (')' :: ds) := hn.before (by decide) ds
  have hcolon : Cuts [' ', ':', ' '] [(.colon, ":")] (no.text.toList ++ ')' :: ds) := by
    have hmark : Cuts [':'] [(.colon, ":")] (' ' :: (no.text.toList ++ ')' :: ds)) := by
      refine cuts_punctuation (c := ':') rfl (by simp) fun _ => ?_
      rintro _ ⟨⟩
      decide
    have hblank : Cuts [' '] [] ([':'] ++ ([' '] ++ (no.text.toList ++ ')' :: ds))) :=
      cuts_space (by rintro _ ⟨⟩; rfl)
    exact (hblank.append hmark).append (cuts_space hsn.avoids_blank)
  have hlast := hcolon.append hno
  have hyes : Cuts yes.text.toList yes.words ([' ', ':', ' '] ++ no.text.toList ++ ')' :: ds) :=
    hy.before (by decide) _
  have hmark : Cuts _ [Word.op "?"]
      (yes.text.toList ++ ([' ', ':', ' '] ++ no.text.toList ++ ')' :: ds)) :=
    cuts_spaced (.inl (by decide)) hsy.avoids_blank
  have hcuts := cuts_grouped ((((hc.before (by decide) _).append hmark).append hyes).append hlast)
  rw [words_of_loose (by simp [prec]), spell, operand_words, operand_words, operand_words]
  simpa [text] using hcuts

theorem Expr.isCut_array {pos : Pos} {elements : List Expr}
    (h : List.Forall₂ Part (exprTexts elements) (spellExprs true elements)) :
    (Expr.array pos elements).IsCut := by
  intro ds _
  have hcuts := cuts_bracketed (cuts_listed h (by decide) ds)
  rw [words_of_tight rfl, spell]
  simpa [text, bracketed] using hcuts

theorem Expr.isCut_call {pos : Pos} {key : Nat} {callee : Expr} {args : List Arg}
    {types : List String} (h : callee.IsCut)
    (hargs : List.Forall₂ Part (argTexts args) (spellArgs true args))
    (htypes : types = [] ∨ Vocabulary.printable.types types) :
    (Expr.call pos key callee args types).IsCut := by
  intro ds _
  have hlist := cuts_grouped (cuts_listed hargs (by decide) ds)
  rw [words_of_tight rfl, spell, operand_words]
  rcases htypes with rfl | htypes
  · have hcuts := (h.before (by decide) _).append hlist
    simpa [text] using hcuts
  · obtain ⟨names, hne, -, rfl⟩ := exists_typeNames htypes
    have hempty : (typeTexts names).isEmpty = false := by
      cases names with
      | nil => exact absurd rfl hne
      | cons name names => rfl
    have htail := (cuts_typeArgs htypes).append hlist
    generalize Piece.words (Grammar.angled (typeTexts names)).toList = ws at htail ⊢
    rw [toList_angled] at htail
    have hcuts := (h.before (by decide) _).append htail
    simpa [text, hempty] using hcuts

/-- An argument starts with its name if it has one. -/
theorem part_arg {name : String} {value : Expr} (hn : name = "" ∨ Vocabulary.printable.label name)
    (h : value.IsCut) (hs : StartsText value.text) :
    Part (if name = "" then value.text else name ++ "=" ++ value.text)
      ((if name = "" then [] else [Word.label name, Word.op "="]) ++ value.words) := by
  split
  · exact ⟨hs, fun c hc ds => h.before hc ds⟩
  · next hne =>
    have hlabel := hn.resolve_left hne
    refine ⟨?_, fun c hc ds => ?_⟩
    · rw [String.append_assoc]
      exact (StartsText.of_isWord (isWord_label hlabel)).append _
    · have hvalue := h.before hc ds
      have hop : Cuts "=".toList [Word.op "="] (value.text.toList ++ c :: ds) :=
        cuts_operator "=" (by decide) (hs.endsOperator "=")
      have hname : Cuts name.toList [Word.label name]
          ("=".toList ++ (value.text.toList ++ c :: ds)) :=
        cuts_label hlabel (by rintro _ ⟨⟩; rfl)
      have hcuts := (hname.append hop).append hvalue
      simpa using hcuts

end Forms

mutual

/-- **The text of an expression is cut into the words of its full spelling.** -/
theorem Expr.cuts_text : (e : Expr) → e.Over .printable → e.IsCut
  | .number .., h, ds, hd => cuts_number h.isNumber (hd.avoids_of_isNumber rfl (by decide))
  | .string .., h, ds, _ => cuts_quote h ds
  | .bool _ value, _, ds, hd => by
    have hword := hd.avoids (p := isWordPart) (by decide)
    cases value
    · exact cuts_wordOf (s := "false") isWord_false (by decide) hword
    · exact cuts_wordOf (s := "true") isWord_true (by decide) hword
  | .na _, _, ds, hd => cuts_wordOf (s := "na") isWord_na (by decide) (hd.avoids (by decide))
  | .color .., h, ds, hd => cuts_color (Lexeme.isColor h) (hd.avoids (by decide))
  | .name .., h, ds, hd => cuts_identifier h (hd.avoids (by decide))
  | .member _ object _, h, ds, hd => Expr.isCut_member (Expr.cuts_text object h.1) h.2.1 h.2.2 ds hd
  | .index _ object offset, h, ds, hd =>
    Expr.isCut_index (Expr.cuts_text object h.1) (Expr.cuts_text offset h.2) ds hd
  | .call _ _ callee args _, h, ds, hd =>
    Expr.isCut_call (Expr.cuts_text callee h.2.1) (parts_args args h.2.2.1)
      (h.2.2.2.imp id And.right) ds hd
  | .binary _ _ left right, h, ds, hd =>
    Expr.isCut_binary h.1 (Expr.cuts_text left h.2.1) (Expr.cuts_text right h.2.2)
      (Expr.startsText right h.2.2) ds hd
  | .unary _ _ operand, h, ds, hd =>
    Expr.isCut_unary h.1 (Expr.cuts_text operand h.2) (Expr.startsText operand h.2) ds hd
  | .ternary _ cond yes no, h, ds, hd =>
    Expr.isCut_ternary (Expr.cuts_text cond h.1) (Expr.cuts_text yes h.2.1) (Expr.cuts_text no h.2.2)
      (Expr.startsText yes h.2.1) (Expr.startsText no h.2.2) ds hd
  | .array _ elements, h, ds, hd => Expr.isCut_array (parts_exprs elements h) ds hd

theorem parts_exprs : (es : List Expr) → ExprsOver .printable es →
    List.Forall₂ Part (exprTexts es) (spellExprs true es)
  | [], _ => .nil
  | e :: es, h => by
    rw [exprTexts, spellExprs]
    exact .cons ⟨e.startsText h.1, fun c hc ds => (e.cuts_text h.1).before hc ds⟩
      (parts_exprs es h.2)

theorem parts_args : (args : List Arg) → ArgsOver .printable args →
    List.Forall₂ Part (argTexts args) (spellArgs true args)
  | [], _ => .nil
  | .mk _ value :: args, h => by
    rw [argTexts, spellArgs]
    exact .cons (part_arg h.1 (value.cuts_text h.2.1) (value.startsText h.2.1))
      (parts_args args h.2.2)

end

end Pine
