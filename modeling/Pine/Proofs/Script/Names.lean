import Pine.Script.Text

/-!
# Names in scripts

The text of a script is put together from fixed texts, from escaped strings, and from texts that
stand in it as they are: names, numbers, operators and the targets of builtins. The latter are the
*leaves* of the script. A leaf in a place where the script binds a name is a binder.
-/

namespace Pine

open List

namespace Script

/-! ### Identifiers -/

/-- The characters that start an identifier. -/
def isIdentifierStart (c : Char) : Bool := Piece.isWordStart c || c = '$'

/-- The characters that continue an identifier. -/
def isIdentifierPart (c : Char) : Bool := Piece.isWordPart c || c = '$'

/-- Whether a text is an identifier: a letter, an underscore or a dollar sign, followed by such
characters and digits. -/
def isIdentifier (s : String) : Bool :=
  match s.toList with
  | [] => false
  | c :: cs => isIdentifierStart c && cs.all isIdentifierPart

theorem isIdentifierPart_of_start {c : Char} (h : isIdentifierStart c = true) :
    isIdentifierPart c = true := by
  unfold isIdentifierStart at h
  unfold isIdentifierPart Piece.isWordPart
  simp only [Bool.or_eq_true] at h ⊢
  exact h.imp_left .inl

theorem isIdentifierPart_of_isWordPart {c : Char} (h : Piece.isWordPart c = true) :
    isIdentifierPart c = true := by
  rw [isIdentifierPart, h, Bool.true_or]

/-- Every character of an identifier can continue one. -/
theorem isIdentifierPart_of_mem {s : String} (h : isIdentifier s = true) {c : Char}
    (hc : c ∈ s.toList) : isIdentifierPart c = true := by
  unfold isIdentifier at h
  split at h
  · cases h
  · next d cs hs =>
    rw [hs] at hc
    rw [Bool.and_eq_true, all_eq_true] at h
    rcases mem_cons.1 hc with rfl | hc
    · exact isIdentifierPart_of_start h.1
    · exact h.2 c hc

/-- An identifier can be continued. -/
theorem isIdentifier_append {s t : String} (hs : isIdentifier s = true)
    (ht : ∀ c ∈ t.toList, isIdentifierPart c = true) : isIdentifier (s ++ t) = true := by
  unfold isIdentifier at hs ⊢
  rw [String.toList_append]
  split at hs
  · cases hs
  · next c cs h =>
    rw [Bool.and_eq_true, all_eq_true] at hs
    rw [h]
    simp only [cons_append, Bool.and_eq_true, all_eq_true, mem_append]
    exact ⟨hs.1, fun d hd => hd.elim (hs.2 d) (ht d)⟩

/-- An identifier behind an identifier is an identifier. -/
theorem isIdentifier_append_isIdentifier {s t : String} (hs : isIdentifier s = true)
    (ht : isIdentifier t = true) : isIdentifier (s ++ t) = true :=
  isIdentifier_append hs fun _ => isIdentifierPart_of_mem ht

theorem isIdentifierPart_of_mem_toString (n : Nat) {c : Char} (h : c ∈ (toString n).toList) :
    isIdentifierPart c = true := by
  rw [Nat.toString_eq_ofList_toDigits, String.toList_ofList] at h
  have hdigit := Nat.isDigit_of_mem_toDigits (by decide) (by decide) h
  refine isIdentifierPart_of_isWordPart ?_
  rw [Char.isDigit_iff_toNat] at hdigit
  have hd : Piece.isDigit c = true := by
    simp only [Piece.isDigit, Bool.and_eq_true, decide_eq_true_eq, Char.le_def,
      UInt32.le_iff_toNat_le]
    exact hdigit
  rw [Piece.isWordPart, hd, Bool.or_true]

/-- No identifier holds a quote. -/
theorem quote_notMem_of_isIdentifier {s : String} (h : isIdentifier s = true) :
    '"' ∉ s.toList := by
  intro hq
  exact absurd (isIdentifierPart_of_mem h hq) (by decide)

theorem isIdentifier_of_isNameShaped {s : String} (h : isNameShaped s = true) :
    isIdentifier s = true := by
  unfold isNameShaped at h
  unfold isIdentifier
  cases hs : s.toList with
  | nil =>
    rw [hs] at h
    cases h
  | cons c cs =>
    simp only [hs, Bool.and_eq_true, List.all_eq_true] at h ⊢
    refine ⟨?_, fun d hd => isIdentifierPart_of_isWordPart (h.2 d hd)⟩
    rw [isIdentifierStart, h.1, Bool.true_or]

/-! ### Names that the compiler makes -/

section Names

variable {name : String} (h : isIdentifier name = true)

include h

theorem isIdentifier_safeName : isIdentifier (safeName name) = true := by
  unfold safeName
  split
  · exact h
  · exact isIdentifier_append_isIdentifier (by decide) h

theorem isIdentifier_safeMember : isIdentifier (safeMember name) = true := by
  unfold safeMember
  split
  · exact isIdentifier_append_isIdentifier (by decide) h
  · exact h

theorem isIdentifier_seriesName : isIdentifier (seriesName name) = true :=
  isIdentifier_append_isIdentifier (by decide) h

theorem isIdentifier_historyName : isIdentifier (historyName name) = true :=
  isIdentifier_append_isIdentifier (by decide) h

theorem isIdentifier_cellName : isIdentifier (cellName name) = true :=
  isIdentifier_append_isIdentifier (by decide) h

end Names

theorem isIdentifier_loopName (n : Nat) : isIdentifier (loopName n) = true :=
  isIdentifier_append (by decide) fun _ => isIdentifierPart_of_mem_toString n

theorem isIdentifier_directionName (n : Nat) : isIdentifier (directionName n) = true :=
  isIdentifier_append_isIdentifier (isIdentifier_loopName n) (by decide)

theorem isIdentifier_subjectName (n : Nat) : isIdentifier (subjectName n) = true :=
  isIdentifier_append (by decide) fun _ => isIdentifierPart_of_mem_toString n

/-! ### Leaves -/

/-- A text that stands in a script as it is. -/
inductive Leaf where
  /-- A name where it is bound. -/
  | binder (name : String)
  /-- A name where it is used, or the name of a member. -/
  | mention (name : String)
  /-- A number, a constant, an operator or the target of a builtin. -/
  | atom (text : String)
  deriving DecidableEq, Repr

namespace Leaf

/-- The text of a leaf. -/
def text : Leaf → String
  | binder name | mention name => name
  | atom text => text

/-- The name of a binder. -/
def bound? : Leaf → Option String
  | binder name => some name
  | _ => none

end Leaf

mutual

/-- The leaves of an expression. -/
def Expr.leaves : Expr → List Leaf
  | .atom text => [.atom text]
  | .literal _ => []
  | .name name => [.mention name]
  | .member object property => object.leaves ++ [.mention property]
  | .call callee args => callee.leaves ++ exprLeaves args
  | .history name offset => .mention (historyName name) :: offset.leaves
  | .series _ value | .input _ value | .plot _ value => value.leaves
  | .binary op left right => .atom op.scriptText :: (left.leaves ++ right.leaves)
  | .unary op operand => .atom op.scriptText :: operand.leaves
  | .ternary cond yes no => cond.leaves ++ yes.leaves ++ no.leaves
  | .paren inner => inner.leaves
  | .array elements => exprLeaves elements
  | .object properties => propertyLeaves properties
  | .block body => stmtLeaves body

/-- The leaves of expressions. -/
def exprLeaves : List Expr → List Leaf
  | [] => []
  | e :: es => e.leaves ++ exprLeaves es

/-- The leaves of properties. -/
def propertyLeaves : List Property → List Leaf
  | [] => []
  | .mk name value :: properties => .mention name :: (value.leaves ++ propertyLeaves properties)

/-- The leaves of a statement. -/
def Stmt.leaves : Stmt → List Leaf
  | .const name value | .bind name value => .binder name :: value.leaves
  | .bindAll names => names.map .binder
  | .bindTuple names value | .assignTuple names value => names.map .binder ++ value.leaves
  | .assign target op value => .atom op.scriptText :: (target.leaves ++ value.leaves)
  | .importLib name _ => [.binder name]
  | .cell cell _ => [.binder cell]
  | .carry cell => [.mention cell]
  | .restore name cell initial => .binder name :: .mention cell :: initial.leaves
  | .store cell name => [.mention cell, .mention name]
  | .series name _ => [.binder (seriesName name)]
  | .record name => [.mention (seriesName name), .mention name]
  | .accessor name =>
    [.binder (historyName name), .binder "offset", .mention name, .mention (seriesName name)]
  | .expr value | .ret value => value.leaves
  | .retVoid | .brk | .cont => []
  | .function name params body => .binder name :: (params.map .binder ++ stmtLeaves body)
  | .shim className method function =>
    [.mention className, .mention method, .binder "args", .mention function]
  | .ifElse cond yes otherwise => cond.leaves ++ stmtLeaves yes ++ otherwise.leaves
  | .block body => stmtLeaves body
  | .counter loop => [.binder (loopName loop)]
  | .guard loop _ => [.mention (loopName loop)]
  | .whileLoop cond body => cond.leaves ++ stmtLeaves body
  | .forStep name first test last update step body =>
    .binder name :: .atom test.spelling :: .atom update.spelling ::
      (first.leaves ++ last.leaves ++ step.leaves ++ stmtLeaves body)
  | .forEither name loop first last body =>
    .binder name :: .binder (directionName loop) ::
      (first.leaves ++ last.leaves ++ stmtLeaves body)
  | .forOf item collection body => .binder item :: (collection.leaves ++ stmtLeaves body)
  | .forEntries index item collection body =>
    .binder index :: .binder item :: (collection.leaves ++ stmtLeaves body)
  | .switch subject cases => subject.leaves ++ caseLeaves cases
  | .classDecl name slots => .binder name :: .binder "args" :: slotLeaves slots

/-- The leaves of statements. -/
def stmtLeaves : List Stmt → List Leaf
  | [] => []
  | s :: ss => s.leaves ++ stmtLeaves ss

/-- The leaves of what follows a block of a choice. -/
def Otherwise.leaves : Otherwise → List Leaf
  | .nothing => []
  | .block body => stmtLeaves body
  | .elseIf cond body otherwise => cond.leaves ++ stmtLeaves body ++ otherwise.leaves

/-- The leaves of cases. -/
def caseLeaves : List Case → List Leaf
  | [] => []
  | .test value body :: cases => value.leaves ++ stmtLeaves body ++ caseLeaves cases
  | .default body :: cases => stmtLeaves body ++ caseLeaves cases

/-- The leaves of fields. -/
def slotLeaves : List Slot → List Leaf
  | [] => []
  | .mk param member initial :: slots =>
    .binder param :: .mention member :: (initial.leaves ++ slotLeaves slots)

end

/-- The leaves of a whole script. -/
def leaves (s : Script) : List Leaf :=
  .binder s.functionName :: .binder "ctx" :: stmtLeaves s.body

/-- The names that a script binds: by a declaration of a constant, a variable, a function or a
class, as a parameter, in the head of a loop, or by taking apart an array. -/
def boundNames (s : Script) : List String := s.leaves.filterMap Leaf.bound?

/-! ### Well-spelled leaves -/

variable {A : String → Prop}

/-- A name is an identifier, and any other leaf has the property `A`. -/
def Leaf.Spelled (A : String → Prop) : Leaf → Prop
  | .binder name | .mention name => isIdentifier name = true
  | .atom text => A text

/-- Leaves of which all names are identifiers and all others have the property `A`. -/
def Spelled (A : String → Prop) (leaves : List Leaf) : Prop := ∀ leaf ∈ leaves, leaf.Spelled A

@[simp] theorem spelled_nil : Spelled A [] := by simp [Spelled]

@[simp] theorem spelled_cons {leaf : Leaf} {leaves : List Leaf} :
    Spelled A (leaf :: leaves) ↔ leaf.Spelled A ∧ Spelled A leaves := forall_mem_cons

@[simp] theorem spelled_append {ls ms : List Leaf} :
    Spelled A (ls ++ ms) ↔ Spelled A ls ∧ Spelled A ms := forall_mem_append

/-- The names that a well-spelled script binds are identifiers. -/
theorem isIdentifier_of_mem_boundNames {s : Script} (h : Spelled A s.leaves) {name : String}
    (hn : name ∈ s.boundNames) : isIdentifier name = true := by
  obtain ⟨leaf, hl, hb⟩ := mem_filterMap.1 hn
  have hs := h leaf hl
  cases leaf with
  | binder n =>
    cases hb
    exact hs
  | mention n => cases hb
  | atom t => cases hb

end Script

end Pine
