import Mathlib.Data.List.Chain
import Pine.Proofs.Grammar.Reads
import Pine.Proofs.Tree.Spelling

/-!
# Type arguments

Where a name is followed by `<`, type arguments are tried first. The attempt reads a stretch
without parentheses and line ends that closes every angle bracket it opens, and it succeeds only if
the stretch ends in a `>` with a parenthesis right after it. So it fails in front of tokens without
such a pair, and in front of tokens whose angle brackets do not match before something else than a
type begins.

A type name is read back from its words: a dotted path and type names between angle brackets.
-/

namespace Pine

open List

/-! ### Type names -/

/-- A type name: a dotted path, and the type names between angle brackets after it. -/
inductive TypeName where
  | mk (head : String) (path : List String) (args : List TypeName)

/-- Words between angle brackets. -/
def Word.angled (ws : List Word) : List Word := op "<" :: ws ++ [op ">"]

/-- The words of the names after the first one of a path. -/
def Word.steps (path : List String) : List Word :=
  path.flatMap fun s => [(.dot, "."), (.identifier, s)]

mutual

/-- The text of a type name. -/
def TypeName.text : TypeName → String
  | .mk head path args =>
    path.foldl (fun word s => word ++ "." ++ s) head ++
      (if args.isEmpty then "" else Grammar.angled (typeTexts args))

/-- The texts of type names. -/
def typeTexts : List TypeName → List String
  | [] => []
  | t :: ts => t.text :: typeTexts ts

end

mutual

/-- The words of a type name. -/
def TypeName.spell : TypeName → List Word
  | .mk head path args =>
    (.identifier, head) :: (Word.steps path ++
      if args.isEmpty then [] else Word.angled (Word.listed (spellTypes args)))

/-- The words of type names. -/
def spellTypes : List TypeName → List (List Word)
  | [] => []
  | t :: ts => t.spell :: spellTypes ts

end

mutual

/-- The names in a type name are of a given class. -/
def TypeName.Over (P : String → Prop) : TypeName → Prop
  | .mk head path args => (P head ∧ ∀ s ∈ path, P s) ∧ TypesOver P args

/-- The names in type names are of a given class. -/
def TypesOver (P : String → Prop) : List TypeName → Prop
  | [] => True
  | t :: ts => t.Over P ∧ TypesOver P ts

end

/-! ### Along type arguments -/

namespace Parser

theorem ensures_expect_advance (kind : Token.Kind) (c : Cursor) :
    Ensures (expect kind) c fun t c' => (t = c.peek ∧ t.kind = kind) ∧ c' = c.advance := by
  refine ensures_peek ?_
  split
  · next h =>
    rintro _ _ ⟨⟩
    exact ⟨⟨rfl, h⟩, rfl⟩
  · exact ensures_fail _ _

theorem ensures_expectOp_advance (s : String) (c : Cursor) :
    Ensures (expectOp s) c fun t c' => (t = c.peek ∧ t.isOp s = true) ∧ c' = c.advance := by
  refine ensures_peek ?_
  split
  · next h =>
    rintro _ _ ⟨⟩
    exact ⟨⟨rfl, h⟩, rfl⟩
  · exact ensures_fail _ _

end Parser

namespace Word

/-- The kinds of the words of dotted paths and of the commas between them. -/
def inPath (w : Word) : Prop := w.1 = .identifier ∨ w.1 = .dot ∨ w.1 = .comma

end Word

namespace Grammar

open Pine.Parser

/-- What holds in front of a token of type arguments, with a number of angle brackets open, holds
behind it. The names among the tokens are of a class. -/
structure Along (I : Nat → Cursor → Prop) (P : String → Prop) : Prop where
  path : ∀ {level c}, I level c → c.peek.word.inPath → I level c.advance
  opens : ∀ {level c}, I level c → c.peek.isOp "<" = true → I (level + 1) c.advance
  closes : ∀ {level c}, I (level + 1) c → c.peek.isOp ">" = true → I level c.advance
  name : ∀ {level c}, I level c → c.peek.kind = .identifier → P c.peek.lexeme

namespace Along

variable {I : Nat → Cursor → Prop} {P : String → Prop}

theorem dotted (hI : Along I P) : (n level : Nat) → (word : String) → (c : Cursor) → I level c →
    Ensures (dotted n word) c fun name c' => I level c' ∧ ∃ path : List String,
      (∀ s ∈ path, P s) ∧ name = path.foldl (fun word s => word ++ "." ++ s) word
  | 0, _, _, _, h => ensures_pure ⟨h, [], by simp, rfl⟩
  | n + 1, level, word, c, h => by
    refine ensures_peek (ensures_peekNext ?_)
    split
    · next hk =>
      simp only [Bool.and_eq_true, decide_eq_true_eq] at hk
      obtain ⟨hdot, hname⟩ := hk
      rw [← Cursor.peek_advance (by simp [hdot])] at hname
      have h₁ := hI.path h (.inr (.inl hdot))
      have h₂ := hI.path h₁ (.inl hname)
      refine ensures_advance (ensures_advance ((dotted hI n level _ _ h₂).mono ?_))
      rintro _ c' ⟨hc', path, hpath, rfl⟩
      exact ⟨hc', c.advance.peek.lexeme :: path, forall_mem_cons.2 ⟨hI.name h₁ hname, hpath⟩, rfl⟩
    · exact ensures_pure ⟨h, [], by simp, rfl⟩

mutual

/-- **Type arguments are the texts of type names**, and they end in a `>`. -/
theorem typeArgs (hI : Along I P) : (n level : Nat) → (c : Cursor) →
    (c.peek.isOp "<" = true → I (level + 1) c.advance) →
    Ensures (typeArgs n) c fun texts c' =>
      (∃ c₂, I (level + 1) c₂ ∧ c₂.peek.isOp ">" = true ∧ c' = c₂.advance) ∧
        ∃ names, names ≠ [] ∧ TypesOver P names ∧ texts = typeTexts names
  | 0, _, _, _ => ensures_unexpected
  | n + 1, level, c, h => by
    refine (ensures_expectOp_advance "<" c).bind ?_
    rintro _ _ ⟨⟨rfl, hlt⟩, rfl⟩
    refine (types hI n (level + 1) _ (h hlt)).bind fun texts c₂ ⟨h₂, hnames⟩ => ?_
    refine (ensures_expectOp_advance ">" c₂).bind ?_
    rintro _ _ ⟨⟨rfl, hgt⟩, rfl⟩
    exact ensures_pure ⟨⟨c₂, h₂, hgt, rfl⟩, hnames⟩

theorem types (hI : Along I P) : (n level : Nat) → (c : Cursor) → I level c →
    Ensures (types n) c fun texts c' => I level c' ∧
      ∃ names, names ≠ [] ∧ TypesOver P names ∧ texts = typeTexts names
  | 0, _, _, _ => ensures_unexpected
  | n + 1, level, c, h => by
    refine (ensures_expect_advance .identifier c).bind ?_
    rintro _ _ ⟨⟨rfl, hk⟩, rfl⟩
    refine (dotted hI n level c.peek.lexeme _ (hI.path h (.inl hk))).bind ?_
    rintro _ c₂ ⟨h₂, path, hpath, rfl⟩
    refine ensures_peek ?_
    extract_lets later
    have hlater (name : TypeName) (hname : name.Over P) (c' : Cursor) (h : I level c') :
        Ensures (later name.text) c' fun texts c'' => I level c'' ∧
          ∃ names, names ≠ [] ∧ TypesOver P names ∧ texts = typeTexts names := by
      refine ensures_peek ?_
      split
      · next hcomma =>
        refine ensures_advance ((types hI n level _ (hI.path h (.inr (.inr hcomma)))).bind ?_)
        rintro _ c'' ⟨hc'', names, -, hnames, rfl⟩
        exact ensures_pure ⟨hc'', name :: names, by simp, ⟨hname, hnames⟩, rfl⟩
      · exact ensures_pure ⟨h, [name], by simp, ⟨hname, trivial⟩, rfl⟩
    split
    · refine (typeArgs hI n level c₂ (hI.opens h₂)).bind ?_
      rintro _ _ ⟨⟨c₃, h₃, hgt, rfl⟩, args, hne, hargs, rfl⟩
      have hrun := hlater (.mk c.peek.lexeme path args) ⟨⟨hI.name h hk, hpath⟩, hargs⟩ _
        (hI.closes h₃ hgt)
      rw [TypeName.text, if_neg (by simpa using hne)] at hrun
      exact hrun
    · have hrun := hlater (.mk c.peek.lexeme path []) ⟨⟨hI.name h hk, hpath⟩, trivial⟩ c₂ h₂
      rw [TypeName.text] at hrun
      simpa using hrun

end

end Along

end Grammar

/-! ### Stretches without parentheses -/

/-- The cursor moved over tokens other than parentheses and line ends. -/
def Cursor.Passes (c c' : Cursor) : Prop :=
  ∃ used, c.rest = used ++ c'.rest ∧ c'.past = used.reverse ++ c.past ∧
    ∀ t ∈ used, t.kind ≠ .lparen ∧ t.kind ≠ .newline

namespace Cursor

variable {c c' c'' : Cursor}

theorem Passes.refl (c : Cursor) : c.Passes c := ⟨[], rfl, rfl, by simp⟩

theorem Passes.trans (h : c.Passes c') (h' : c'.Passes c'') : c.Passes c'' := by
  obtain ⟨used, hr, hp, hk⟩ := h
  obtain ⟨used', hr', hp', hk'⟩ := h'
  refine ⟨used ++ used', ?_, ?_, fun t ht => ?_⟩
  · rw [hr, hr', append_assoc]
  · rw [hp', hp, reverse_append, append_assoc]
  · exact (mem_append.1 ht).elim (hk t) (hk' t)

theorem passes_advance {kind : Token.Kind} (h : c.peek.kind = kind) (hp : kind ≠ .lparen)
    (hn : kind ≠ .newline) : c.Passes c.advance := by
  obtain ⟨past, rest⟩ := c
  cases rest with
  | nil => exact .refl _
  | cons t rest =>
    refine ⟨[t], rfl, rfl, fun u hu => ?_⟩
    rw [mem_singleton.1 hu]
    exact ⟨h ▸ hp, h ▸ hn⟩

theorem passes_advance_op {s : String} (h : c.peek.isOp s = true) : c.Passes c.advance :=
  passes_advance (Token.isOp_iff.1 h).1 (by simp) (by simp)

end Cursor

namespace Parser

variable {α : Type}

/-- The parser reads no parenthesis and no line end. -/
def Passing (p : Parser α) : Prop := ∀ c, p.Ensures c fun _ c' => c.Passes c'

theorem passing_expect {kind : Token.Kind} (hp : kind ≠ .lparen) (hn : kind ≠ .newline) :
    (expect kind).Passing := by
  intro c
  refine (ensures_expect_advance kind c).mono ?_
  rintro t _ ⟨⟨rfl, hk⟩, rfl⟩
  exact Cursor.passes_advance hk hp hn

end Parser

namespace Grammar

open Pine.Parser

theorem along_passes (c : Cursor) : Along (fun _ => c.Passes) fun _ => True where
  path h hk := by
    rcases hk with hk | hk | hk
    all_goals exact h.trans (Cursor.passes_advance hk (by simp) (by simp))
  opens h hop := h.trans (Cursor.passes_advance_op hop)
  closes h hop := h.trans (Cursor.passes_advance_op hop)
  name _ _ := trivial

theorem dotted_passing (n : Nat) (word : String) : (dotted n word).Passing := fun c =>
  ((along_passes c).dotted n 0 word c (.refl c)).mono fun _ _ h => h.1

/-- Type arguments end in a `>`. -/
theorem typeArgs_ensures (n : Nat) (c : Cursor) : Ensures (typeArgs n) c fun _ c' =>
    ∃ c₂, c.Passes c₂ ∧ c₂.peek.isOp ">" = true ∧ c' = c₂.advance :=
  ((along_passes c).typeArgs n 0 c Cursor.passes_advance_op).mono fun _ _ h => h.1

theorem typeArgs_passing (n : Nat) : (typeArgs n).Passing := by
  intro c
  refine (typeArgs_ensures n c).mono ?_
  rintro _ _ ⟨c₂, h, hgt, rfl⟩
  exact h.trans (Cursor.passes_advance_op hgt)

/-! ### Where no type arguments stand -/

/-- The tokens do not start with the type arguments of a call. -/
def NoTypeArgs (ts : List Token) : Prop :=
  ∀ n past types c', callTypeArgs n ⟨past, ts⟩ ≠ .ok types c'

theorem callTypeArgs_ensures (n : Nat) (c : Cursor) : Ensures (callTypeArgs n) c fun _ c' =>
    ∃ c₂, c.Passes c₂ ∧ c₂.peek.isOp ">" = true ∧ c' = c₂.advance ∧ c'.peek.kind = .lparen := by
  refine (typeArgs_ensures n c).bind ?_
  rintro _ c' ⟨c₂, h, hgt, rfl⟩
  refine ensures_peek ?_
  split
  · next hk => exact ensures_pure ⟨c₂, h, hgt, rfl, hk⟩
  · exact ensures_fail _ _

end Grammar

/-- The tokens are not a `>` and a parenthesis. -/
def Token.Apart (t u : Token) : Prop := t.isOp ">" = true → u.kind ≠ .lparen

instance (t u : Token) : Decidable (t.Apart u) :=
  inferInstanceAs (Decidable (t.isOp ">" = true → u.kind ≠ .lparen))

namespace Grammar

theorem prefix_of_append_cons {α : Type} {nl : α} {ts tail us vs : List α}
    (h : ts ++ nl :: tail = us ++ vs) (hn : nl ∉ us) : us <+: ts := by
  rcases append_eq_append_iff.1 h with ⟨as, rfl, has⟩ | ⟨bs, rfl, -⟩
  · cases as with
    | nil => simp
    | cons a as =>
      rw [cons_append, List.cons.injEq] at has
      exact absurd (mem_append_right ts (has.1 ▸ mem_cons_self ..)) hn
  · exact prefix_append us bs

/-- **No type arguments stand on a line without a `>` right before a parenthesis.** -/
theorem noTypeArgs_of_isChain {ts : List Token} {nl : Token} (hn : nl.kind = .newline)
    (h : ts.IsChain Token.Apart) (tail : List Token) : NoTypeArgs (ts ++ nl :: tail) := by
  intro n past types c' hok
  obtain ⟨c₂, ⟨used, hr, -, hk⟩, hgt, rfl, hlp⟩ := callTypeArgs_ensures n _ types c' hok
  have hgt' : c₂.peek.kind = .operator := (Token.isOp_iff.1 hgt).1
  have hrest : c₂.rest = [c₂.peek, c₂.advance.peek] ++ c₂.advance.advance.rest := by
    rw [Cursor.rest_eq_cons (by simp [hgt']), Cursor.rest_eq_cons (c := c₂.advance) (by simp [hlp])]
    rfl
  rw [hrest, ← append_assoc] at hr
  -- the pair of tokens stands in front of the line end
  obtain ⟨vs, rfl⟩ := prefix_of_append_cons hr fun hm => by
    rcases mem_append.1 hm with hm | hm
    · exact (hk nl hm).2 hn
    · rcases mem_cons.1 hm with rfl | hm
      · simp [hgt'] at hn
      · rw [mem_singleton.1 hm, hlp] at hn
        cases hn
  exact isChain_pair.1 h.left_of_append.right_of_append hgt hlp

end Grammar

/-! ### Angle brackets that stay open -/

theorem Token.word_of_isOp {t : Token} {s : String} (h : t.isOp s = true) : t.word = Word.op s := by
  obtain ⟨hk, hs⟩ := isOp_iff.1 h
  rw [word, hk, hs]
  rfl

/-- With `level` angle brackets open in front of the words, the outermost one is still open where
something else than types begins. -/
def Word.holdsOpen (level : Nat) : List Word → Bool
  | [] => true
  | (kind, lexeme) :: ws =>
    match kind with
    | .identifier | .dot | .comma => holdsOpen level ws
    | .operator =>
      if lexeme = "<" then holdsOpen (level + 1) ws
      else lexeme ≠ ">" || (1 < level && holdsOpen (level - 1) ws)
    | _ => true

namespace Word

variable {level : Nat} {ws : List Word}

theorem holdsOpen_cons_inPath {w : Word} (h : w.inPath) :
    holdsOpen level (w :: ws) = holdsOpen level ws := by
  obtain ⟨kind, lexeme⟩ := w
  rcases h with h | h | h <;> (cases h; rfl)

theorem holdsOpen_cons_lt : holdsOpen level (op "<" :: ws) = holdsOpen (level + 1) ws := rfl

theorem holdsOpen_cons_gt :
    holdsOpen (level + 1) (op ">" :: ws) = (decide (0 < level) && holdsOpen level ws) := by
  rw [op, holdsOpen]
  simp

end Word

namespace Grammar

open Pine.Parser Word

/-- The words in front of a cursor hold the angle brackets open. -/
def HoldsOpen (level : Nat) (c : Cursor) : Prop := holdsOpen level (c.rest.map Token.word) = true

theorem HoldsOpen.advance {level : Nat} {c : Cursor} (h : HoldsOpen level c)
    (hk : c.peek.word.inPath) : HoldsOpen level c.advance := by
  have hne : c.peek.kind ≠ .eof := by
    rcases hk with hk | hk | hk <;> simp [show c.peek.kind = _ from hk]
  rw [HoldsOpen, Cursor.rest_eq_cons hne, map_cons, holdsOpen_cons_inPath hk] at h
  exact h

theorem HoldsOpen.opens {level : Nat} {c : Cursor} (h : HoldsOpen level c)
    (hlt : c.peek.isOp "<" = true) : HoldsOpen (level + 1) c.advance := by
  rw [HoldsOpen, Cursor.rest_eq_cons (by simp [(Token.isOp_iff.1 hlt).1]), map_cons,
    Token.word_of_isOp hlt, holdsOpen_cons_lt] at h
  exact h

theorem along_holdsOpen : Along (fun level c => 0 < level ∧ HoldsOpen level c) fun _ => True where
  path h hk := ⟨h.1, h.2.advance hk⟩
  opens h hlt := ⟨Nat.succ_pos _, h.2.opens hlt⟩
  closes := by
    rintro level c ⟨-, h⟩ hgt
    rw [HoldsOpen, Cursor.rest_eq_cons (by simp [(Token.isOp_iff.1 hgt).1]), map_cons,
      Token.word_of_isOp hgt, holdsOpen_cons_gt, Bool.and_eq_true, decide_eq_true_eq] at h
    exact h
  name _ _ := trivial

/-- **No type arguments stand in front of words that hold their bracket open.** -/
theorem noTypeArgs_of_holdsOpen {ts : List Token} (h : holdsOpen 0 (ts.map Token.word) = true) :
    NoTypeArgs ts := by
  intro n past types c' hok
  have hstart (hlt : _) := And.intro Nat.one_pos (HoldsOpen.opens (c := ⟨past, ts⟩) h hlt)
  have hread := along_holdsOpen.typeArgs n 0 _ hstart
  refine absurd hok (hread.bind (Q := fun _ _ => False) ?_ types c')
  rintro _ _ ⟨⟨c₂, h₂, hgt, -⟩, -⟩
  exact absurd (along_holdsOpen.closes h₂ hgt).1 (Nat.lt_irrefl 0)

end Grammar

namespace Word

theorem holdsOpen_steps {level : Nat} (ws : List Word) (path : List String) :
    holdsOpen level (steps path ++ ws) = holdsOpen level ws := by
  induction path with
  | nil => rfl
  | cons s path ih =>
    change holdsOpen level ((.dot, ".") :: (.identifier, s) :: (steps path ++ ws)) = _
    rw [holdsOpen_cons_inPath (.inr (.inl rfl)), holdsOpen_cons_inPath (.inl rfl), ih]

/-- The words of type names leave the angle brackets around them as they are. -/
theorem holdsOpen_listed_spellTypes (level : Nat) (ws : List Word) : (names : List TypeName) →
    holdsOpen (level + 1) (listed (spellTypes names) ++ ws) = holdsOpen (level + 1) ws
  | [] => rfl
  | .mk head path args :: names => by
    have hargs (vs : List Word) : holdsOpen (level + 1) ((TypeName.mk head path args).spell ++ vs) =
        holdsOpen (level + 1) vs := by
      rw [TypeName.spell, cons_append, holdsOpen_cons_inPath (.inl rfl), append_assoc,
        holdsOpen_steps]
      split
      · rfl
      · rw [angled, append_assoc, cons_append, holdsOpen_cons_lt,
          holdsOpen_listed_spellTypes _ _ args, singleton_append, holdsOpen_cons_gt]
        simp
    cases names with
    | nil => simpa [spellTypes, listed] using hargs ws
    | cons other names =>
      have hcons := holdsOpen_listed_spellTypes level ws (other :: names)
      rw [spellTypes, spellTypes, listed, intercalate_cons_cons, append_assoc,
        append_assoc, hargs, singleton_append,
        holdsOpen_cons_inPath (.inr (.inr rfl))]
      exact hcons

end Word

/-- The words of types. -/
def Word.inTypes (w : Word) : Prop := w.inPath ∨ w = op "<" ∨ w = op ">"

theorem Word.inTypes_of_mem_steps {w : Word} {path : List String} (h : w ∈ steps path) :
    w.inTypes := by
  obtain ⟨s, -, hw⟩ := mem_flatMap.1 h
  rcases mem_cons.1 hw with rfl | hw
  · exact .inl (.inr (.inl rfl))
  · rw [mem_singleton.1 hw]
    exact .inl (.inl rfl)

theorem Word.inTypes_of_mem_angled {ws : List Word} (h : ∀ w ∈ ws, w.inTypes) {w : Word}
    (hw : w ∈ angled ws) : w.inTypes := by
  rcases mem_append.1 hw with hw | hw
  · rcases mem_cons.1 hw with rfl | hw
    · exact .inr (.inl rfl)
    · exact h w hw
  · rw [mem_singleton.1 hw]
    exact .inr (.inr rfl)

theorem Word.inTypes_of_mem_spellTypes : (names : List TypeName) →
    ∀ w ∈ listed (spellTypes names), w.inTypes
  | [], w, hw => by cases hw
  | .mk head path args :: names, w, hw => by
    rw [spellTypes, listed_cons] at hw
    rcases mem_append.1 hw with hw | hw
    · rw [TypeName.spell] at hw
      rcases mem_cons.1 hw with rfl | hw
      · exact .inl (.inl rfl)
      rcases mem_append.1 hw with hw | hw
      · exact inTypes_of_mem_steps hw
      · split at hw
        · cases hw
        · exact inTypes_of_mem_angled (inTypes_of_mem_spellTypes args) hw
    · split at hw
      · cases hw
      · rcases mem_cons.1 hw with rfl | hw
        · exact .inl (.inr (.inr rfl))
        · exact inTypes_of_mem_spellTypes names w hw

/-- The identifiers ahead are of a given class. -/
def Cursor.Names (P : String → Prop) (c : Cursor) : Prop :=
  ∀ t ∈ c.rest, t.kind = .identifier → P t.lexeme

section Names

variable {P : String → Prop} {c : Cursor}

theorem Cursor.Names.advance (h : c.Names P) : c.advance.Names P := by
  obtain ⟨past, rest⟩ := c
  cases rest with
  | nil => exact h
  | cons t rest => exact fun u hu => h u (mem_cons_of_mem t hu)

theorem Cursor.Names.peek (h : c.Names P) (hk : c.peek.kind = .identifier) : P c.peek.lexeme := by
  refine h c.peek ?_ hk
  rw [Cursor.rest_eq_cons (by simp [hk])]
  exact mem_cons_self ..

namespace Grammar

open Pine.Parser

theorem along_names : Along (fun _ c => c.Names P) P :=
  ⟨fun h _ => h.advance, fun h _ => h.advance, fun h _ => h.advance, fun h => h.peek⟩

/-- Type arguments are the texts of type names over the identifiers ahead. -/
theorem typeArgs_names (n : Nat) (c : Cursor) (h : c.Names P) :
    Ensures (typeArgs n) c fun texts _ =>
      ∃ names, names ≠ [] ∧ TypesOver P names ∧ texts = typeTexts names :=
  (along_names.typeArgs n 0 c fun _ => h.advance).mono fun _ _ h => h.2

end Grammar

end Names

/-! ### Reading type names -/

namespace Grammar

open Pine.Parser Word

theorem dotted_steps {rest : List Token} (hd : ∀ t ∈ rest.head?, t.kind ≠ .dot) :
    (path : List String) → (n : Nat) → path.length ≤ n → (word : String) →
    (us past : List Token) → us.map Token.word = steps path →
    dotted n word ⟨past, us ++ rest⟩ =
      .ok (path.foldl (fun word s => word ++ "." ++ s) word) ⟨us.reverse ++ past, rest⟩
  | [], 0, _, word, us, past, hus => by
    rw [map_eq_nil_iff.1 hus]
    rfl
  | [], n + 1, _, word, us, past, hus => by
    rw [map_eq_nil_iff.1 hus]
    change (if _ then _ else (pure word : Parser String)) (Cursor.mk past rest) = _
    rw [if_neg]
    · rfl
    · cases rest with
      | nil => simp [Cursor.peek]
      | cons t rest => simp [Cursor.peek, hd t rfl]
  | s :: path, n + 1, hn, word, us, past, hus => by
    obtain ⟨dot, us, rfl, hdot, hus⟩ := map_eq_cons_iff.1 hus
    obtain ⟨name, us, rfl, hname, hus⟩ := map_eq_cons_iff.1 hus
    have hdot' : dot.kind = .dot := congrArg Prod.fst hdot
    have hname' : name.kind = .identifier := congrArg Prod.fst hname
    have hlex : name.lexeme = s := congrArg Prod.snd hname
    have hrec := dotted_steps hd path n (Nat.le_of_succ_le_succ hn) (word ++ "." ++ s) us
      (name :: dot :: past) hus
    change (if (dot.kind = Token.Kind.dot && name.kind = Token.Kind.identifier) = true then _
      else _ : Parser String) _ = _
    rw [if_pos (by simp [hdot', hname']), foldl_cons, reverse_cons, reverse_cons,
      append_assoc, append_assoc, ← hlex]
    rw [← hlex] at hrec
    exact hrec

/-- What follows the path of a type name: its arguments if there are any. -/
def Applied (n : Nat) (path : String) (c : Cursor) (name : String) (c' : Cursor) : Prop :=
  c.peek.isOp "<" = false ∧ name = path ∧ c' = c ∨
    c.peek.isOp "<" = true ∧ ∃ inner, typeArgs n c = .ok inner c' ∧ name = path ++ angled inner

theorem types_ok {n : Nat} {c c₁ c₂ c₃ : Cursor} {t : Token} {path name : String}
    (h₁ : expect .identifier c = .ok t c₁) (h₂ : dotted n t.lexeme c₁ = .ok path c₂)
    (h₃ : Applied n path c₂ name c₃) :
    types (n + 1) c = if c₃.peek.kind = .comma then
      (types n >>= fun others => pure (name :: others)) c₃.advance else .ok [name] c₃ := by
  rw [types, bind_ok h₁, bind_ok h₂, bind_ok (show peek c₂ = .ok c₂.peek c₂ from rfl)]
  rcases h₃ with ⟨hlt, rfl, rfl⟩ | ⟨hlt, inner, hinner, rfl⟩
  · rw [if_neg (by simp [hlt])]
    change (if c₃.peek.kind = Token.Kind.comma then _ else _ : Parser (List String)) c₃ = _
    split
    · rfl
    · rfl
  · rw [if_pos hlt, bind_ok hinner]
    change (if c₃.peek.kind = Token.Kind.comma then _ else _ : Parser (List String)) c₃ = _
    split
    · rfl
    · rfl

theorem typeArgs_ok {n : Nat} {us past rest : List Token} {lt gt : Token} {ts : List String}
    (hlt : lt.isOp "<" = true) (hgt : gt.isOp ">" = true)
    (h : types n ⟨lt :: past, us ++ gt :: rest⟩ = .ok ts ⟨us.reverse ++ lt :: past, gt :: rest⟩) :
    typeArgs (n + 1) ⟨past, lt :: us ++ gt :: rest⟩ =
      .ok ts ⟨gt :: us.reverse ++ lt :: past, rest⟩ := by
  rw [typeArgs, cons_append, bind_ok (expectOp_ok hlt ..), bind_ok h,
    bind_ok (expectOp_ok hgt ..)]
  rfl

theorem length_of_steps {ts : List Token} {path : List String} (h : ts.map Token.word = steps path) :
    ts.length = 2 * path.length := by
  rw [← length_map Token.word, h]
  clear h
  induction path with
  | nil => rfl
  | cons s path ih =>
    change (steps path).length + 2 = 2 * (path.length + 1)
    omega

theorem exists_of_angled {ts : List Token} {ws : List Word} (h : ts.map Token.word = Word.angled ws) :
    ∃ lt us gt, ts = lt :: us ++ [gt] ∧ lt.isOp "<" = true ∧ gt.isOp ">" = true ∧
      us.map Token.word = ws := by
  obtain ⟨lt, ts, rfl, hlt, h⟩ := map_eq_cons_iff.1 h
  obtain ⟨us, ts, rfl, hus, h⟩ := map_eq_append_iff.1 h
  obtain ⟨gt, ts, rfl, hgt, h⟩ := map_eq_cons_iff.1 h
  cases map_eq_nil_iff.1 h
  refine ⟨lt, us, gt, rfl, Token.isOp_iff.2 ?_, Token.isOp_iff.2 ?_, hus⟩
  · exact ⟨congrArg Prod.fst hlt, congrArg Prod.snd hlt⟩
  · exact ⟨congrArg Prod.fst hgt, congrArg Prod.snd hgt⟩

mutual

theorem types_spell_cons : (name : TypeName) → (n : Nat) → (us past : List Token) →
    us.length ≤ n + 1 → us.map Token.word = name.spell → (t : Token) → (tail : List Token) →
    t.kind ≠ .dot → t.isOp "<" = false →
    types (n + 1) ⟨past, us ++ t :: tail⟩ = if t.kind = .comma then
      (types n >>= fun others => pure (name.text :: others)) ⟨t :: (us.reverse ++ past), tail⟩
      else .ok [name.text] ⟨us.reverse ++ past, t :: tail⟩
  | .mk head path args, n, us, past, hn, hus, t, tail, hdot, hlt => by
    rw [TypeName.spell] at hus
    obtain ⟨first, us, rfl, hfirst, hafter⟩ := map_eq_cons_iff.1 hus
    obtain ⟨tokens, us, rfl, htokens, hargs⟩ := map_eq_append_iff.1 hafter
    obtain rfl : first.lexeme = head := congrArg Prod.snd hfirst
    have hkind : first.kind = .identifier := congrArg Prod.fst hfirst
    have hlen := length_of_steps htokens
    rw [length_cons, length_append] at hn
    have hcases : args = [] ∧ us = [] ∨ args ≠ [] ∧ ∃ lt inner gt, us = lt :: inner ++ [gt] ∧
        lt.isOp "<" = true ∧ gt.isOp ">" = true ∧
        inner.map Token.word = listed (spellTypes args) := by
      cases args with
      | nil => exact .inl ⟨rfl, map_eq_nil_iff.1 hargs⟩
      | cons arg args => exact .inr ⟨cons_ne_nil arg args, exists_of_angled hargs⟩
    have hd : ∀ u ∈ (us ++ t :: tail).head?, u.kind ≠ .dot := by
      rcases hcases with ⟨-, rfl⟩ | ⟨-, lt, inner, gt, rfl, hop, -⟩
      · simpa using hdot
      · simp [(Token.isOp_iff.1 hop).1]
    have hpath := dotted_steps hd path n (by omega) first.lexeme tokens (first :: past) htokens
    have happ : Applied n (path.foldl (fun word s => word ++ "." ++ s) first.lexeme)
        ⟨tokens.reverse ++ first :: past, us ++ t :: tail⟩ (TypeName.mk first.lexeme path args).text
        ⟨us.reverse ++ (tokens.reverse ++ first :: past), t :: tail⟩ := by
      rw [TypeName.text]
      rcases hcases with ⟨rfl, rfl⟩ | ⟨hne, lt, inner, gt, rfl, hop, hgt, hinner⟩
      · exact .inl ⟨hlt, String.append_empty, rfl⟩
      · obtain ⟨n, rfl⟩ : ∃ m, n = m + 1 := ⟨n - 1, by simp at hn; omega⟩
        have hrec := types_spell hgt (t :: tail) args hne n inner
          (lt :: (tokens.reverse ++ first :: past)) (by simp at hn; omega) hinner
        refine .inr ⟨hop, typeTexts args, ?_, by rw [if_neg (by simpa using hne)]⟩
        simpa using typeArgs_ok hop hgt hrec
    have hrun := types_ok (expect_ok hkind past (tokens ++ (us ++ t :: tail))) hpath happ
    have happend : us.reverse ++ (tokens.reverse ++ first :: past) =
        (first :: (tokens ++ us)).reverse ++ past := by simp
    rw [happend] at hrun
    rw [cons_append, append_assoc]
    exact hrun

theorem types_spell {gt : Token} (hgt : gt.isOp ">" = true) (rest : List Token) :
    (names : List TypeName) → names ≠ [] → (n : Nat) → (us past : List Token) → us.length ≤ n →
    us.map Token.word = listed (spellTypes names) →
    types n ⟨past, us ++ gt :: rest⟩ = .ok (typeTexts names) ⟨us.reverse ++ past, gt :: rest⟩
  | [], hne, _, _, _, _, _ => absurd rfl hne
  | .mk head path args :: names, _, 0, us, past, hn, hus => by
    rw [eq_nil_of_length_eq_zero (Nat.le_zero.1 hn), spellTypes, listed_cons,
      TypeName.spell] at hus
    exact absurd hus (by simp)
  | name :: names, _, n + 1, us, past, hn, hus => by
    rw [spellTypes, listed_cons] at hus
    obtain ⟨us, others, rfl, hfirst, hothers⟩ := map_eq_append_iff.1 hus
    rw [length_append] at hn
    have hop := (Token.isOp_iff.1 hgt).1
    cases names with
    | nil =>
      cases map_eq_nil_iff.1 hothers
      have hname := types_spell_cons name n us past (by omega) hfirst gt rest (by simp [hop])
        (by simp [Token.isOp, (Token.isOp_iff.1 hgt).2])
      rw [if_neg (by simp [hop])] at hname
      simpa [typeTexts] using hname
    | cons other names =>
      obtain ⟨comma, others, rfl, hcomma, hlast⟩ := map_eq_cons_iff.1 hothers
      have hkind : comma.kind = .comma := congrArg Prod.fst hcomma
      have hname := types_spell_cons name n us past (by omega) hfirst comma (others ++ gt :: rest)
        (by simp [hkind]) (by simp [Token.isOp, hkind])
      have hrec := types_spell hgt rest (other :: names) (cons_ne_nil other names) n others
        (comma :: (us.reverse ++ past)) (by simp at hn; omega) hlast
      rw [if_pos hkind, bind_ok hrec] at hname
      simpa [typeTexts, pure, EStateM.pure] using hname

end

/-- **The words of type names between angle brackets are read back** as the type arguments of a
call. -/
theorem callTypeArgs_spell {names : List TypeName} (hne : names ≠ []) {ts : List Token}
    (hts : ts.map Token.word = Word.angled (listed (spellTypes names))) {n : Nat}
    (hn : ts.length ≤ n) {lp : Token} (hlp : lp.kind = .lparen) (past rest : List Token) :
    callTypeArgs n ⟨past, ts ++ lp :: rest⟩ =
      .ok (typeTexts names) ⟨ts.reverse ++ past, lp :: rest⟩ := by
  obtain ⟨lt, us, gt, rfl, hlt, hgt, hus⟩ := exists_of_angled hts
  obtain ⟨n, rfl⟩ : ∃ m, n = m + 1 := ⟨n - 1, by simp at hn; omega⟩
  have hread := types_spell hgt (lp :: rest) names hne n us (lt :: past) (by simp at hn; omega) hus
  have hargs := typeArgs_ok hlt hgt hread
  have hcursor : lt :: us ++ [gt] ++ lp :: rest = lt :: us ++ gt :: lp :: rest := by simp
  rw [callTypeArgs, hcursor, bind_ok hargs]
  change (if lp.kind = .lparen then pure (typeTexts names) else _ : Parser (List String)) _ = _
  rw [if_pos hlp]
  simp [pure, EStateM.pure]

end Grammar

end Pine
