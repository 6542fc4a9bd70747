import Pine.Proofs.Tree.Relocate
import Pine.Token.Piece

/-!
# Spelling expressions

An expression is spelled as a list of words, the kinds and lexemes of its tokens. The operators
bind in eight levels, from the loosest to the tightest: the choice `? :`, then `or`, `and`,
equality, comparison, sums, products, and the operators in front of an operand. An operand that
binds less tightly than its place demands stands in parentheses. A full spelling puts every
operator in parentheses, whether its place demands it or not.
-/

namespace Pine

open List

/-! ### Words -/

/-- The kind and lexeme of a token. -/
abbrev Word := Token.Kind × String

/-- The kind and lexeme of a token. -/
def Token.word (t : Token) : Word := (t.kind, t.lexeme)

/-- The word of a piece that is a token. -/
def Piece.word? (p : Piece) : Option Word :=
  match p.form with
  | .token kind lexeme => some (kind, lexeme)
  | _ => none

/-- The words of a text. -/
def Piece.words (cs : List Char) : List Word := (split cs).filterMap word?

namespace Word

/-- The word of a member or of the name of an argument, which may be a keyword. -/
def label (s : String) : Word := (if s ∈ Piece.keywords then .keyword else .identifier, s)

/-- An operator. -/
def op (s : String) : Word := (.operator, s)

/-- Words in parentheses. -/
def grouped (ws : List Word) : List Word := (.lparen, "(") :: ws ++ [(.rparen, ")")]

end Word

/-! ### Precedence -/

/-- How tightly an operator between two operands binds. -/
def BinaryOp.level : BinaryOp → Nat
  | or => 1
  | and => 2
  | eq | ne => 3
  | gt | lt | ge | le => 4
  | add | sub => 5
  | mul | div | rem => 6
  | other _ => 0

/-- How tightly an expression binds. -/
def Expr.prec : Expr → Nat
  | .ternary .. => 0
  | .binary _ op _ _ => op.level
  | .unary .. => 7
  | _ => 8

/-! ### Spelling -/

/-- The words of an operand where at least the given precedence is demanded. -/
def Expr.operand (full : Bool) (demand : Nat) (e : Expr) (ws : List Word) : List Word :=
  if e.prec < (if full then 8 else demand) then Word.grouped ws else ws

/-- Lists of words with commas between them. -/
def Word.listed (parts : List (List Word)) : List Word := [(.comma, ",")].intercalate parts

theorem Word.listed_cons (ws : List Word) (parts : List (List Word)) : listed (ws :: parts) =
    ws ++ if parts.isEmpty then [] else (.comma, ",") :: listed parts := by
  cases parts with
  | nil => simp [listed]
  | cons vs parts => simp [listed, intercalate_cons_cons]

mutual

/-- The words of an expression. -/
def Expr.spell (full : Bool) : Expr → List Word
  | .number _ text => [(.number, text)]
  | .string _ value => [(.string, value)]
  | .bool _ value => [(.boolean, if value then "true" else "false")]
  | .na _ => [(.na, "na")]
  | .color _ text => [(.color, text)]
  | .name _ n => [(.identifier, n)]
  | .member _ object property =>
    object.operand full 8 (object.spell full) ++ [(.dot, "."), Word.label property]
  | .index _ object offset =>
    object.operand full 8 (object.spell full) ++
      (.lbracket, "[") :: offset.operand full 0 (offset.spell full) ++ [(.rbracket, "]")]
  | .call _ _ callee args typeArgs =>
    callee.operand full 8 (callee.spell full) ++
      (if typeArgs.isEmpty then [] else Piece.words (Grammar.angled typeArgs).toList) ++
      Word.grouped (Word.listed (spellArgs full args))
  | .binary _ op left right =>
    left.operand full op.level (left.spell full) ++
      Word.op op.spelling :: right.operand full (op.level + 1) (right.spell full)
  | .unary _ op operand => Word.op op.spelling :: operand.operand full 7 (operand.spell full)
  | .ternary _ cond yes no =>
    cond.operand full 1 (cond.spell full) ++
      Word.op "?" :: yes.operand full 0 (yes.spell full) ++
      (.colon, ":") :: no.operand full 0 (no.spell full)
  | .array _ elements =>
    (.lbracket, "[") :: Word.listed (spellExprs full elements) ++ [(.rbracket, "]")]
  | .missing | .switch .. | .ifElse .. => []

/-- The words of expressions. -/
def spellExprs (full : Bool) : List Expr → List (List Word)
  | [] => []
  | e :: es => e.operand full 0 (e.spell full) :: spellExprs full es

/-- The words of arguments. -/
def spellArgs (full : Bool) : List Arg → List (List Word)
  | [] => []
  | .mk name value :: args =>
    ((if name = "" then [] else [Word.label name, Word.op "="]) ++
      value.operand full 0 (value.spell full)) :: spellArgs full args

end

/-- The words of an argument. -/
def Arg.spell (full : Bool) : Arg → List Word
  | .mk name value => (if name = "" then [] else [Word.label name, Word.op "="]) ++
      value.operand full 0 (value.spell full)

theorem spellExprs_eq_map (full : Bool) (es : List Expr) :
    spellExprs full es = es.map fun e => e.operand full 0 (e.spell full) := by
  induction es with
  | nil => rfl
  | cons e es ih => rw [spellExprs, ih, map_cons]

theorem spellArgs_eq_map (full : Bool) (args : List Arg) :
    spellArgs full args = args.map (Arg.spell full) := by
  induction args with
  | nil => rfl
  | cons arg args ih =>
    obtain ⟨name, value⟩ := arg
    rw [spellArgs, ih, map_cons, Arg.spell]

theorem BinaryOp.level_lt (op : BinaryOp) : op.level < 7 := by
  cases op <;> simp [level]

theorem Expr.prec_le (e : Expr) : e.prec ≤ 8 := by
  cases e
  case binary op _ _ => exact Nat.le_trans (Nat.le_of_lt op.level_lt) (by simp)
  all_goals simp [prec]

/-! ### Expressions over a vocabulary -/

/-- What may stand at the leaves of an expression. -/
structure Vocabulary where
  /-- The numbers. -/
  number : String → Prop
  /-- The values of strings. -/
  string : String → Prop
  /-- The colors. -/
  color : String → Prop
  /-- The names. -/
  name : String → Prop
  /-- The names of members and arguments. -/
  label : String → Prop
  /-- What may have members. -/
  object : Expr → Prop
  /-- The type arguments of a call. -/
  types : List String → Prop

/-- Any leaves, and no type arguments. -/
def Vocabulary.untyped : Vocabulary where
  number := fun _ => True
  string := fun _ => True
  color := fun _ => True
  name := fun _ => True
  label := fun _ => True
  object := fun _ => True
  types := fun _ => False

/-- Whether an expression is the value that is not available. -/
def Expr.isNa : Expr → Bool
  | .na _ => true
  | _ => false

mutual

/-- The expressions without blocks over a vocabulary. -/
def Expr.Over (L : Vocabulary) : Expr → Prop
  | .number _ text => L.number text
  | .string _ value => L.string value
  | .bool .. | .na _ => True
  | .color _ text => L.color text
  | .name _ n => L.name n
  | .member _ object property => object.Over L ∧ L.object object ∧ L.label property
  | .index _ object offset => object.Over L ∧ offset.Over L
  | .call _ key callee args typeArgs =>
    (key = 0 ∧ callee.isNa = false) ∧ callee.Over L ∧ ArgsOver L args ∧
      (typeArgs = [] ∨ Grammar.isCallee callee = true ∧ L.types typeArgs)
  | .binary _ op left right => op ∈ BinaryOp.known ∧ left.Over L ∧ right.Over L
  | .unary _ op operand => op ∈ UnaryOp.known ∧ operand.Over L
  | .ternary _ cond yes no => cond.Over L ∧ yes.Over L ∧ no.Over L
  | .array _ elements => ExprsOver L elements
  | .missing | .switch .. | .ifElse .. => False

/-- Expressions over a vocabulary. -/
def ExprsOver (L : Vocabulary) : List Expr → Prop
  | [] => True
  | e :: es => e.Over L ∧ ExprsOver L es

/-- Arguments over a vocabulary. -/
def ArgsOver (L : Vocabulary) : List Arg → Prop
  | [] => True
  | .mk name value :: args => (name = "" ∨ L.label name) ∧ value.Over L ∧ ArgsOver L args

end

/-- An expression up to its positions. -/
def Expr.erase (e : Expr) : Expr := e.relocate fun _ => ⟨0, 0⟩

/-! ### How words can start -/

/-- The kinds that can start an expression without blocks. -/
def Token.Kind.startsExpr : Token.Kind → Bool
  | .number | .string | .boolean | .na | .color | .identifier | .lparen | .lbracket
  | .operator => true
  | _ => false

/-- The words start like an expression, and if it is to be `tight`, not with an operator. -/
def Word.Opens (tight : Prop) (ws : List Word) : Prop :=
  ∃ w ∈ ws.head?, w.1.startsExpr = true ∧ (tight → w.1 ≠ .operator)

section Opens

variable {P Q : Prop} {ws : List Word}

theorem Word.Opens.append (h : Opens P ws) (vs : List Word) : Opens P (ws ++ vs) := by
  obtain ⟨w, hw, hs⟩ := h
  exact ⟨w, by simp [Option.mem_def.1 hw], hs⟩

theorem Word.Opens.mono (h : Opens P ws) (hQ : Q → P) : Opens Q ws := by
  obtain ⟨w, hw, hs, ht⟩ := h
  exact ⟨w, hw, hs, fun hq => ht (hQ hq)⟩

/-- An operand binds as tightly as is demanded of it. -/
theorem Word.Opens.operand {e : Expr} (h : Opens (8 ≤ e.prec) ws) (full : Bool) (demand : Nat) :
    Opens (8 ≤ demand) (e.operand full demand ws) := by
  unfold Expr.operand
  generalize hk : (if full then 8 else demand) = k
  split
  · exact ⟨_, rfl, rfl, fun _ => by simp⟩
  · next hp =>
    refine h.mono fun hd => Nat.le_trans ?_ (Nat.le_of_not_lt hp)
    cases full <;> subst hk
    · exact hd
    · exact Nat.le_refl 8

end Opens

theorem Expr.opens_spell (full : Bool) {L : Vocabulary} : (e : Expr) → e.Over L →
    Word.Opens (8 ≤ e.prec) (e.spell full)
  | .number .., _ | .string .., _ | .bool .., _ | .na _, _ | .color .., _ | .name .., _
  | .array .., _ => by
    rw [Expr.spell]
    exact ⟨_, rfl, rfl, fun _ => by simp⟩
  | .unary .., _ => by
    rw [Expr.spell]
    exact ⟨_, rfl, rfl, fun h => absurd h (by simp [prec])⟩
  | .member _ object _, h => by
    rw [Expr.spell]
    exact (((opens_spell full object h.1).operand ..).append _).mono fun _ => Nat.le_refl 8
  | .index _ object _, h => by
    rw [Expr.spell, append_assoc]
    exact (((opens_spell full object h.1).operand ..).append _).mono fun _ => Nat.le_refl 8
  | .call _ _ callee _ _, h => by
    rw [Expr.spell, append_assoc]
    exact (((opens_spell full callee h.2.1).operand ..).append _).mono fun _ => Nat.le_refl 8
  | .binary _ _ left _, h => by
    rw [Expr.spell]
    exact ((opens_spell full left h.2.1).operand ..).append _
  | .ternary _ cond _ _, h => by
    rw [Expr.spell, append_assoc]
    exact (((opens_spell full cond h.1).operand ..).append _).mono fun h => absurd h (by simp [prec])

/-! ### Where names are bound -/

namespace Word

/-- Every `=` comes after a `(`. -/
def bindsLate : List Word → Bool
  | [] => true
  | w :: ws => w.1 = .lparen || (w ≠ op "=" && bindsLate ws)

theorem bindsLate_append {ws vs : List Word} (h : bindsLate ws = true) (h' : bindsLate vs = true) :
    bindsLate (ws ++ vs) = true := by
  induction ws with
  | nil => exact h'
  | cons w ws ih =>
    rw [bindsLate, Bool.or_eq_true, Bool.and_eq_true] at h
    rw [cons_append, bindsLate, Bool.or_eq_true, Bool.and_eq_true]
    exact h.imp_right fun hw => ⟨hw.1, ih hw.2⟩

theorem bindsLate_cons {w : Word} {ws : List Word} (hw : w ≠ op "=") (h : bindsLate ws = true) :
    bindsLate (w :: ws) = true := by
  simp [bindsLate, hw, h]

theorem bindsLate_of_forall {ws : List Word} (h : ∀ w ∈ ws, w ≠ op "=") : bindsLate ws = true := by
  induction ws with
  | nil => rfl
  | cons w ws ih =>
    refine bindsLate_cons (h w (mem_cons_self ..)) (ih fun v hv => ?_)
    exact h v (mem_cons_of_mem w hv)

theorem label_ne_op (s t : String) : label s ≠ op t := by
  unfold label op
  split <;> simp

theorem bindsLate_listed : (parts : List (List Word)) → (∀ ws ∈ parts, bindsLate ws = true) →
    bindsLate (listed parts) = true
  | [], _ => rfl
  | [ws], h => by
    rw [listed, intercalate_singleton]
    exact h ws (mem_singleton_self ws)
  | ws :: vs :: parts, h => by
    rw [listed, intercalate_cons_cons]
    refine bindsLate_append (bindsLate_append (h ws (mem_cons_self ..)) rfl) ?_
    exact bindsLate_listed (vs :: parts) fun us hus => h us (mem_cons_of_mem ws hus)

end Word

theorem Expr.operand_tight (full : Bool) (e : Expr) (ws : List Word) :
    e.operand full 8 ws = if e.prec < 8 then Word.grouped ws else ws := by
  cases full <;> rfl

theorem Word.bindsLate_operand {ws : List Word} (h : Word.bindsLate ws = true) (full : Bool)
    (demand : Nat) (e : Expr) : Word.bindsLate (e.operand full demand ws) = true := by
  unfold Expr.operand
  generalize (if full then 8 else demand) = k
  split
  · rfl
  · exact h

section BindsLate

variable {L : Vocabulary} (full : Bool)

open Word

mutual

/-- **Every `=` in the words of an expression comes after a `(`**: only arguments are bound. -/
theorem Expr.bindsLate_spell (hL : ∀ types, L.types types →
    bindsLate (Piece.words (Grammar.angled types).toList) = true) :
    (e : Expr) → e.Over L → bindsLate (e.spell full) = true
  | .number .., _ | .string .., _ | .bool .., _ | .na _, _ | .color .., _ | .name .., _ => by
    rw [Expr.spell]
    rfl
  | .member _ object property, h => by
    rw [Expr.spell]
    refine bindsLate_append (bindsLate_operand (Expr.bindsLate_spell hL object h.1) ..) ?_
    exact bindsLate_cons (by simp [op]) (bindsLate_cons (label_ne_op property "=") rfl)
  | .index _ object offset, h => by
    rw [Expr.spell, append_assoc]
    refine bindsLate_append (bindsLate_operand (Expr.bindsLate_spell hL object h.1) ..) ?_
    refine bindsLate_cons (by simp [op]) (bindsLate_append ?_ rfl)
    exact bindsLate_operand (Expr.bindsLate_spell hL offset h.2) ..
  | .call _ _ callee args types, h => by
    rw [Expr.spell]
    refine bindsLate_append (bindsLate_append
      (bindsLate_operand (Expr.bindsLate_spell hL callee h.2.1) ..) ?_) rfl
    split
    · rfl
    · next hne =>
      refine hL types (h.2.2.2.resolve_left fun hnil => hne ?_).2
      rw [hnil]
      rfl
  | .binary _ bop left right, h => by
    rw [Expr.spell]
    have hop : ∀ o ∈ BinaryOp.known, op o.spelling ≠ op "=" := by decide
    refine bindsLate_append (bindsLate_operand (Expr.bindsLate_spell hL left h.2.1) ..) ?_
    exact bindsLate_cons (hop bop h.1) (bindsLate_operand (Expr.bindsLate_spell hL right h.2.2) ..)
  | .unary _ uop operand, h => by
    rw [Expr.spell]
    have hop : ∀ o ∈ UnaryOp.known, op o.spelling ≠ op "=" := by decide
    exact bindsLate_cons (hop uop h.1) (bindsLate_operand (Expr.bindsLate_spell hL operand h.2) ..)
  | .ternary _ cond yes no, h => by
    rw [Expr.spell, append_assoc]
    refine bindsLate_append (bindsLate_operand (Expr.bindsLate_spell hL cond h.1) ..) ?_
    refine bindsLate_cons (by decide) (bindsLate_append ?_ (bindsLate_cons (by simp [op]) ?_))
    · exact bindsLate_operand (Expr.bindsLate_spell hL yes h.2.1) ..
    · exact bindsLate_operand (Expr.bindsLate_spell hL no h.2.2) ..
  | .array _ elements, h => by
    rw [Expr.spell]
    refine bindsLate_append (bindsLate_cons (by simp [op]) ?_) rfl
    exact bindsLate_listed _ (bindsLate_spellExprs hL elements h)

theorem bindsLate_spellExprs (hL : ∀ types, L.types types →
    bindsLate (Piece.words (Grammar.angled types).toList) = true) :
    (es : List Expr) → ExprsOver L es → ∀ ws ∈ spellExprs full es, bindsLate ws = true
  | [], _ => by simp [spellExprs]
  | e :: es, h => by
    intro ws hws
    rw [spellExprs] at hws
    rcases mem_cons.1 hws with rfl | hws
    · exact bindsLate_operand (Expr.bindsLate_spell hL e h.1) ..
    · exact bindsLate_spellExprs hL es h.2 ws hws

end

end BindsLate

end Pine
