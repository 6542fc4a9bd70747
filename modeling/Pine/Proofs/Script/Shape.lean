import Pine.Proofs.Script.Names
import Pine.Script.Number

/-!
# The shape of a script

What a script does with its strings is hidden by leaving out the content of every double-quoted
literal of its text. A literal is read with backslash escapes; it ends at the next quote, and a
line end ends it too. Two texts have the same shape if they agree after this.

Every string that goes into the text of a script is escaped first, and an escaped string is one
literal, whatever it holds and whatever follows it.
-/

namespace Pine

open List

namespace Script

/-! ### Leaving out literals -/

/-- The characters that end a line. -/
def isLineEnd (c : Char) : Bool := c = '\n' || c = '\r' || c = '\u2028' || c = '\u2029'

/-- Where a scan of a text stands. -/
inductive Scan where
  /-- Outside of literals. -/
  | code
  /-- Inside of a literal. -/
  | literal
  /-- After a backslash in a literal. -/
  | escape
  deriving DecidableEq, Repr

namespace Scan

/-- Where the scan stands after one more character. -/
def next : Scan → Char → Scan
  | code, c => if c = '"' then literal else code
  | literal, c => if c = '"' || isLineEnd c then code else if c = '\\' then escape else literal
  | escape, _ => literal

/-- Whether a character is kept. -/
def keeps : Scan → Char → Bool
  | code, _ => true
  | literal, c => c = '"' || isLineEnd c
  | escape, _ => false

/-- Where the scan stands after a text. -/
def after (m : Scan) (cs : List Char) : Scan := cs.foldl next m

/-- The characters that are kept. -/
def kept (m : Scan) : List Char → List Char
  | [] => []
  | c :: cs => if m.keeps c then c :: kept (m.next c) cs else kept (m.next c) cs

theorem after_append (m : Scan) (cs ds : List Char) :
    m.after (cs ++ ds) = (m.after cs).after ds := List.foldl_append

theorem kept_append (m : Scan) : (cs ds : List Char) →
    m.kept (cs ++ ds) = m.kept cs ++ (m.after cs).kept ds
  | [], _ => rfl
  | c :: cs, ds => by
    have ih := kept_append (m.next c) cs ds
    simp only [List.cons_append, kept]
    split
    · rw [ih]
      rfl
    · exact ih

theorem next_code {c : Char} (h : c ≠ '"') : code.next c = code := by
  rw [next, if_neg h]

/-- A character that neither ends a literal nor starts an escape is left out of a literal. -/
theorem next_literal {c : Char} (h : c ≠ '"') (h' : isLineEnd c = false) (h'' : c ≠ '\\') :
    literal.next c = literal ∧ literal.keeps c = false := by
  simp [next, keeps, h, h', h'']

/-- A text without quotes is kept outside of literals. -/
theorem code_of_notMem : {cs : List Char} → '"' ∉ cs → code.after cs = code ∧ code.kept cs = cs
  | [], _ => ⟨rfl, rfl⟩
  | c :: cs, h => by
    rw [mem_cons, not_or] at h
    obtain ⟨hafter, hkept⟩ := code_of_notMem h.2
    have hc := next_code (Ne.symm h.1)
    refine ⟨?_, ?_⟩
    · change (code.next c).after cs = code
      rw [hc, hafter]
    · change c :: (code.next c).kept cs = c :: cs
      rw [hc, hkept]

/-- A text of such characters is left out of a literal. -/
theorem literal_of_all : {cs : List Char} →
    (∀ c ∈ cs, c ≠ '"' ∧ isLineEnd c = false ∧ c ≠ '\\') →
    literal.after cs = literal ∧ literal.kept cs = []
  | [], _ => ⟨rfl, rfl⟩
  | c :: cs, h => by
    obtain ⟨⟨hq, hl, hb⟩, h⟩ := List.forall_mem_cons.1 h
    obtain ⟨hafter, hkept⟩ := literal_of_all h
    obtain ⟨hnext, hkeeps⟩ := next_literal hq hl hb
    refine ⟨?_, ?_⟩
    · change (literal.next c).after cs = literal
      rw [hnext, hafter]
    · rw [kept, hkeeps, if_neg Bool.false_ne_true, hnext, hkept]

/-- A line end after a brace leads out of every literal. -/
theorem after_brace (m : Scan) : m.after ['\x7b', '\n'] = code := by
  cases m <;> rfl

end Scan

/-- A text without the content of its double-quoted literals. -/
def eraseLiterals (s : String) : String := String.ofList (Scan.code.kept s.toList)

/-! ### Texts of the same shape -/

/-- Texts that are the same without the content of their literals, and of which neither ends inside
of a literal. -/
structure SameShape (s t : String) : Prop where
  kept : Scan.code.kept s.toList = Scan.code.kept t.toList
  left : Scan.code.after s.toList = .code
  right : Scan.code.after t.toList = .code

namespace SameShape

variable {s s' t t' : String} {ss ts : List String}

theorem symm (h : SameShape s t) : SameShape t s := ⟨h.kept.symm, h.right, h.left⟩

theorem trans {u : String} (h : SameShape s t) (h' : SameShape t u) : SameShape s u :=
  ⟨h.kept.trans h'.kept, h.left, h'.right⟩

theorem append (h : SameShape s t) (h' : SameShape s' t') : SameShape (s ++ s') (t ++ t') where
  kept := by
    rw [String.toList_append, String.toList_append, Scan.kept_append, Scan.kept_append, h.left,
      h.right, h.kept, h'.kept]
  left := by rw [String.toList_append, Scan.after_append, h.left, h'.left]
  right := by rw [String.toList_append, Scan.after_append, h.right, h'.right]

/-- A text that does not end inside of a literal has the shape of itself. -/
theorem refl_of_after (h : Scan.code.after s.toList = .code) : SameShape s s := ⟨rfl, h, h⟩

theorem eraseLiterals (h : SameShape s t) : eraseLiterals s = eraseLiterals t :=
  congrArg String.ofList h.kept

end SameShape

/-! ### Escaped strings -/

theorem mem_hexDigits : (width n : Nat) → ∀ c ∈ Text.hexDigits width n,
    c ≠ '"' ∧ isLineEnd c = false ∧ c ≠ '\\'
  | 0, _, c, h => by cases h
  | width + 1, n, c, h => by
    rcases mem_append.1 h with h | h
    · exact mem_hexDigits width (n / 16) c h
    · rw [mem_singleton.1 h]
      have hall : ((List.range 16).all fun k => Nat.digitChar k ≠ '"' &&
          !isLineEnd (Nat.digitChar k) && Nat.digitChar k ≠ '\\') = true := by decide
      have hk := List.all_eq_true.1 hall (n % 16) (List.mem_range.2 (Nat.mod_lt n (by decide)))
      simpa [and_assoc] using hk

theorem literal_codeEscape (c : Char) : Scan.literal.after (Text.codeEscape c) = .literal ∧
    Scan.literal.kept (Text.codeEscape c) = [] := by
  have hdigits := Scan.literal_of_all (mem_hexDigits 4 c.toNat)
  rw [Text.codeEscape, Scan.after_append, Scan.kept_append]
  exact hdigits

/-- An escaped character is left out of a literal. -/
theorem literal_escapedChar (c : Char) : Scan.literal.after (Text.escapedChar c) = .literal ∧
    Scan.literal.kept (Text.escapedChar c) = [] := by
  by_cases hmark : (c = '"' || c = '\\') = true
  · rw [Text.escapedChar, if_pos hmark]
    exact ⟨rfl, rfl⟩
  by_cases hcode : (c.toNat < 0x20 || Text.isGuarded c) = true
  · unfold Text.escapedChar
    rw [if_neg hmark]
    iterate 5
      split
      · exact ⟨rfl, rfl⟩
    exact literal_codeEscape c
  · -- any other character stands for itself and neither ends a literal nor starts an escape
    have hne (d : Char) (hd : d.toNat < 0x20) : c ≠ d := by
      rintro rfl
      simp [hd] at hcode
    have hself : Text.escapedChar c = [c] := by
      rw [Text.escapedChar, if_neg hmark, if_neg (hne '\n' (by decide)),
        if_neg (hne '\r' (by decide)),
        if_neg (hne '\t' (by decide)), if_neg (hne '\x08' (by decide)),
        if_neg (hne '\x0c' (by decide)), if_neg hcode]
    rw [hself]
    refine Scan.literal_of_all ?_
    simp only [mem_singleton, forall_eq]
    simp only [Bool.or_eq_true, decide_eq_true_eq, not_or] at hmark
    simp only [Text.isGuarded, Bool.or_eq_true, decide_eq_true_eq, not_or] at hcode
    refine ⟨hmark.1, ?_, hmark.2⟩
    simp [isLineEnd, hne '\n' (by decide), hne '\r' (by decide), hcode.2]

theorem literal_flatMap_escapedChar : (cs : List Char) →
    Scan.literal.after (cs.flatMap Text.escapedChar) = .literal ∧
      Scan.literal.kept (cs.flatMap Text.escapedChar) = []
  | [] => ⟨rfl, rfl⟩
  | c :: cs => by
    obtain ⟨hafter, hkept⟩ := literal_escapedChar c
    obtain ⟨hafter', hkept'⟩ := literal_flatMap_escapedChar cs
    rw [flatMap_cons, Scan.after_append, Scan.kept_append, hafter, hkept]
    exact ⟨hafter', hkept'⟩

/-- **An escaped string is one literal**, whatever it holds. -/
theorem sameShape_escaped (s t : String) : SameShape (Text.escaped s) (Text.escaped t) := by
  have h (s : String) : Scan.code.after (Text.escaped s).toList = .code ∧
      Scan.code.kept (Text.escaped s).toList = ['"', '"'] := by
    obtain ⟨hafter, hkept⟩ := literal_flatMap_escapedChar s.toList
    rw [Text.escaped, String.toList_ofList, Scan.after_append, Scan.kept_append]
    change (Scan.literal.after _).after ['"'] = _ ∧
      '"' :: Scan.literal.kept _ ++ (Scan.literal.after _).kept ['"'] = _
    rw [hafter, hkept]
    exact ⟨rfl, rfl⟩
  exact ⟨(h s).2.trans (h t).2.symm, (h s).1, (h t).1⟩

/-! ### Scripts without their strings -/

mutual

/-- An expression with all strings empty. -/
def Expr.hollow : Expr → Expr
  | .atom text => .atom text
  | .literal _ => .literal ""
  | .name name => .name name
  | .member object property => .member object.hollow property
  | .call callee args => .call callee.hollow (hollowExprs args)
  | .history name offset => .history name offset.hollow
  | .series _ value => .series "" value.hollow
  | .input id initial => .input id initial.hollow
  | .plot id value => .plot id value.hollow
  | .binary op left right => .binary op left.hollow right.hollow
  | .unary op operand => .unary op operand.hollow
  | .ternary cond yes no => .ternary cond.hollow yes.hollow no.hollow
  | .paren inner => .paren inner.hollow
  | .array elements => .array (hollowExprs elements)
  | .object properties => .object (hollowProperties properties)
  | .block body => .block (hollowStmts body)

/-- Expressions with all strings empty. -/
def hollowExprs : List Expr → List Expr
  | [] => []
  | e :: es => e.hollow :: hollowExprs es

/-- Properties with all strings empty. -/
def hollowProperties : List Property → List Property
  | [] => []
  | .mk name value :: properties => .mk name value.hollow :: hollowProperties properties

/-- A statement with all strings empty; a library is imported from the empty path. -/
def Stmt.hollow : Stmt → Stmt
  | .const name value => .const name value.hollow
  | .bind name value => .bind name value.hollow
  | .bindAll names => .bindAll names
  | .bindTuple names value => .bindTuple names value.hollow
  | .assignTuple names value => .assignTuple names value.hollow
  | .assign target op value => .assign target.hollow op value.hollow
  | .importLib name _ => .importLib name ""
  | .cell cell key => .cell cell key
  | .carry cell => .carry cell
  | .restore name cell initial => .restore name cell initial.hollow
  | .store cell name => .store cell name
  | .series name key => .series name key
  | .record name => .record name
  | .accessor name => .accessor name
  | .expr value => .expr value.hollow
  | .ret value => .ret value.hollow
  | .retVoid => .retVoid
  | .brk => .brk
  | .cont => .cont
  | .function name params body => .function name params (hollowStmts body)
  | .shim className method function => .shim className method function
  | .ifElse cond yes otherwise => .ifElse cond.hollow (hollowStmts yes) otherwise.hollow
  | .block body => .block (hollowStmts body)
  | .counter loop => .counter loop
  | .guard loop limit => .guard loop limit
  | .whileLoop cond body => .whileLoop cond.hollow (hollowStmts body)
  | .forStep name first test last update step body =>
    .forStep name first.hollow test last.hollow update step.hollow (hollowStmts body)
  | .forEither name loop first last body =>
    .forEither name loop first.hollow last.hollow (hollowStmts body)
  | .forOf item collection body => .forOf item collection.hollow (hollowStmts body)
  | .forEntries index item collection body =>
    .forEntries index item collection.hollow (hollowStmts body)
  | .switch subject cases => .switch subject.hollow (hollowCases cases)
  | .classDecl name slots => .classDecl name (hollowSlots slots)

/-- Statements with all strings empty. -/
def hollowStmts : List Stmt → List Stmt
  | [] => []
  | s :: ss => s.hollow :: hollowStmts ss

/-- What follows a block of a choice, with all strings empty. -/
def Otherwise.hollow : Otherwise → Otherwise
  | .nothing => .nothing
  | .block body => .block (hollowStmts body)
  | .elseIf cond body otherwise => .elseIf cond.hollow (hollowStmts body) otherwise.hollow

/-- Cases with all strings empty. -/
def hollowCases : List Case → List Case
  | [] => []
  | .test value body :: cases => .test value.hollow (hollowStmts body) :: hollowCases cases
  | .default body :: cases => .default (hollowStmts body) :: hollowCases cases

/-- Fields with all strings empty. -/
def hollowSlots : List Slot → List Slot
  | [] => []
  | .mk param member initial :: slots => .mk param member initial.hollow :: hollowSlots slots

end

/-! ### The text of a script without its strings -/

/-- A text without quotes. -/
def QuoteFree (s : String) : Prop := '"' ∉ s.toList

instance (s : String) : Decidable (QuoteFree s) := inferInstanceAs (Decidable ('"' ∉ s.toList))

/-- The characters of the texts of numbers. -/
def isNumeric (c : Char) : Bool := c.isDigit || "+-.eNaInf".toList.contains c

theorem isNumeric_of_mem_toDigits {n : Nat} {c : Char} (h : c ∈ Nat.toDigits 10 n) :
    isNumeric c = true := by
  rw [isNumeric, Nat.isDigit_of_mem_toDigits (by decide) (by decide) h, Bool.true_or]

theorem isNumeric_of_mem_zeros {n : Nat} {c : Char} (h : c ∈ NumberStyle.zeros n) :
    isNumeric c = true := by
  rw [eq_of_mem_replicate h]
  decide

theorem isNumeric_of_mem_shortest (m : Nat) (e : Int) :
    ∀ c ∈ (Binary64.shortest m e).digits, isNumeric c = true := by
  have hscaled (n : Nat) (i : Int) : ∀ c ∈ (Decimal.ofScaled n i).digits, isNumeric c = true := by
    intro c h
    have hdrop := (dropWhile_sublist _).mem (mem_reverse.1 h)
    exact isNumeric_of_mem_toDigits (mem_reverse.1 hdrop)
  unfold Binary64.shortest
  dsimp only
  split
  · next d hd =>
    obtain ⟨i, -, hi⟩ := exists_of_findSome?_eq_some hd
    obtain ⟨n, -, rfl⟩ := Option.map_eq_some_iff.1 hi
    exact hscaled n i
  · exact hscaled _ _

theorem isNumeric_of_mem_writeDecimal (style : NumberStyle) {d : Decimal}
    (hd : ∀ c ∈ d.digits, isNumeric c = true) : ∀ c ∈ style.writeDecimal d, isNumeric c = true := by
  have htake (n : Nat) : ∀ c ∈ d.digits.take n, isNumeric c = true :=
    fun c h => hd c (mem_of_mem_take h)
  have hdrop (n : Nat) : ∀ c ∈ d.digits.drop n, isNumeric c = true :=
    fun c h => hd c (mem_of_mem_drop h)
  have hzeros (n : Nat) : ∀ c ∈ NumberStyle.zeros n, isNumeric c = true :=
    fun _ => isNumeric_of_mem_zeros
  unfold NumberStyle.writeDecimal
  split
  · have hwhole (n k : Nat) : ∀ c ∈ if n = 0 then ['0'] else d.digits.take n ++ NumberStyle.zeros k,
        isNumeric c = true := by
      split
      · exact all_eq_true.1 (by decide)
      · exact forall_mem_append.2 ⟨htake _, hzeros _⟩
    unfold NumberStyle.positional
    dsimp only
    split
    · exact hwhole _ _
    · refine forall_mem_append.2 ⟨hwhole _ _, forall_mem_cons.2 ⟨by decide, ?_⟩⟩
      exact forall_mem_append.2 ⟨hzeros _, hdrop _⟩
  · have hfraction : ∀ c ∈ if (d.digits.drop 1).isEmpty then [] else '.' :: d.digits.drop 1,
        isNumeric c = true := by
      split
      · simp
      · exact forall_mem_cons.2 ⟨by decide, hdrop 1⟩
    have hmark (p : Prop) [Decidable p] : ∀ c ∈ ['e', if p then '-' else '+'],
        isNumeric c = true := by
      split <;> exact all_eq_true.1 (by decide)
    unfold NumberStyle.exponential
    simp only [forall_mem_append]
    exact ⟨⟨⟨⟨htake 1, hfraction⟩, hmark _⟩, hzeros _⟩, fun _ => isNumeric_of_mem_toDigits⟩

/-- The texts of numbers have digits, signs, points and some letters. -/
theorem isNumeric_of_mem_numberText {spelling : String} :
    ∀ c ∈ (numberText spelling).toList, isNumeric c = true := by
  unfold numberText
  split
  · next f _ =>
    cases f with
    | nan => exact all_eq_true.1 (by decide)
    | infinite negative => cases negative <;> exact all_eq_true.1 (by decide)
    | finite negative m e =>
      have htext : ∀ c ∈ if m = 0 then ['0']
          else (numberStyle (.finite negative m e)).writeDecimal (Binary64.shortest m e),
          isNumeric c = true := by
        split
        · exact all_eq_true.1 (by decide)
        · exact isNumeric_of_mem_writeDecimal _ (isNumeric_of_mem_shortest m e)
      rw [NumberStyle.write, String.toList_ofList]
      cases negative with
      | false => exact htext
      | true => exact forall_mem_cons.2 ⟨by decide, htext⟩
  · exact all_eq_true.1 (by decide)

/-- The text of a number has no quotes. -/
theorem quoteFree_numberText (spelling : String) : QuoteFree (numberText spelling) :=
  fun h => absurd (isNumeric_of_mem_numberText _ h) (by decide)

end Script

end Pine
