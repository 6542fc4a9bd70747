import Pine.Proofs.Grammar.Sound
import Pine.Proofs.Token.Flat
import Pine.Reading

/-!
# Expressions that go on after a block

A switch or an `if` inside an expression ends with a block, and the end of a block is the end of a
line. The expression does not end there. Where the next line starts with a token that goes on with
an expression, a bracket, a dot or an operator, this token goes on with the one that ended in the
block; only where it does not, the block was the end.

Blocks open outside of brackets, so that nothing that ends in a block can stand inside of brackets.
The bounds on repetitions are past the number of tokens left, so that no repetition ends early.
-/

namespace Pine

open List

/-! ### Parts that end in a block -/

namespace Expr

/-- The switch or `if` at the end of an expression. -/
def block? : Expr → Option Expr
  | .binary _ _ _ right => right.block?
  | .unary _ _ operand => operand.block?
  | .ternary _ _ _ no => no.block?
  | .switch p subject arms => some (.switch p subject arms)
  | .ifElse p cond yes no => some (.ifElse p cond yes no)
  | _ => none

/-- The parts after which an expression goes on. -/
def heads : Expr → List Expr
  | .member _ object _ | .index _ object _ => [object]
  | .call _ _ callee _ _ => [callee]
  | .binary _ _ left _ => [left]
  | .ternary _ cond yes _ => [cond, yes]
  | _ => []

/-- The parts of an expression that are whole expressions. -/
def wholes : Expr → List Expr
  | .index _ _ offset => [offset]
  | .call _ _ _ args _ => args.map Arg.value
  | .array _ elements => elements
  | .switch _ subject arms => subject :: arms.map Arm.test
  | .ifElse _ cond _ _ => [cond]
  | _ => []

/-- A token goes on after a head and makes a longer expression of it. -/
inductive Extends (head : Expr) (t : Token) : Expr → Prop
  | member {p : Pos} {property : String} (h : t.kind = .dot) :
      Extends head t (.member p head property)
  | index {p : Pos} {offset : Expr} (h : t.kind = .lbracket) :
      Extends head t (.index p head offset)
  | call {p : Pos} {key : Nat} {args : List Arg} (h : t.kind = .lparen) :
      Extends head t (.call p key head args [])
  | binary {op : BinaryOp} {right : Expr} (h : t.isOp op.spelling = true) :
      Extends head t (.binary t.pos op head right)
  | cond {yes no : Expr} (h : t.isOp "?" = true) : Extends head t (.ternary t.pos head yes no)
  | yes {p : Pos} {cond no : Expr} (h : t.kind = .colon) :
      Extends head t (.ternary p cond head no)

theorem Extends.kind_ne {head e : Expr} {t : Token} (h : head.Extends t e) : t.kind ≠ .eof := by
  cases h with
  | member h | index h | call h | yes h => simp [h]
  | binary h | cond h => simp [(Token.isOp_iff.1 h).1]

end Expr

/-- The parts of a statement that are whole expressions. -/
def Stmt.wholes : Stmt → List Expr
  | .decl _ _ _ _ _ _ value | .ret _ value | .expr _ value => [value]
  | .assign _ target _ value => [target, value]
  | .ifElse _ cond _ _ | .whileLoop _ cond _ => [cond]
  | .forCount _ _ _ test _ _ _ => [test]
  | .forIn _ _ _ collection _ => [collection]
  | .switch _ subject arms => subject :: arms.map Arm.test
  | .typeDecl _ _ fields => fields.map Field.initial
  | _ => []

namespace Node

/-- The parts of a node after which it goes on. -/
def heads : Node → List Expr
  | .expr e => e.heads
  | _ => []

/-- The parts of a node that are whole expressions. -/
def wholes : Node → List Expr
  | .program _ => []
  | .expr e => e.wholes
  | .stmt s => s.wholes

end Node

namespace Token

/-- No expression goes on with the token, unless with an operator that is not among the given. -/
structure Stops (ops : List String) (t : Token) : Prop where
  lparen : t.kind ≠ .lparen
  lbracket : t.kind ≠ .lbracket
  dot : t.kind ≠ .dot
  isOp : ∀ s ∈ ops, t.isOp s = false

/-- The operators that an expression goes on with. -/
def joining : List String := "?" :: BinaryOp.known.map BinaryOp.spelling

theorem stops_of_eof {ops : List String} {t : Token} (h : t.kind = .eof) : t.Stops ops :=
  ⟨by simp [h], by simp [h], by simp [h], fun s _ => by simp [isOp, h]⟩

end Token

namespace Cursor

/-- The cursor stands right behind a switch or an `if`, whose last block is closed or reaches to the
end of input. -/
structure AfterBlock (tokens : List Token) (form : Expr) (c : Cursor) : Prop where
  /-- The grammar reads the form up to here. -/
  reads : ∃ n depth limit c₀, c₀.past.reverse ++ c₀.rest = tokens ∧ c₀.Reads true 0 0 c ∧
    Rule.Parts.primary ⟨n, Rule.exprAt n, Rule.stmtAt n⟩ ⟨c₀, depth, limit⟩ =
      .ok form ⟨c, depth, limit⟩
  /-- The last token ended a block. -/
  closed : c.lastKind = .dedent ∨ c.peek.kind = .eof

end Cursor

section Joined

variable (tokens : List Token)

/-- If the head of an expression ends in a block, the token behind the block goes on with it. -/
def Expr.Continued (e head : Expr) : Prop :=
  ∀ form, head.block? = some form →
    ∃ c : Cursor, c.AfterBlock tokens form ∧ head.Extends c.peek e

/-- If an expression ends in a block, no expression goes on with the token behind the block. -/
def Expr.Whole (e : Expr) : Prop :=
  ∀ form, e.block? = some form →
    ∃ c : Cursor, c.AfterBlock tokens form ∧ c.peek.Stops Token.joining

/-- The parts of a node that end in a block are followed by what fits. -/
def Node.Joined : Node → Prop
  | .program _ => True
  | .expr e => (∀ head ∈ e.heads, e.Continued tokens head) ∧ ∀ x ∈ e.wholes, x.Whole tokens
  | .stmt s => ∀ x ∈ s.wholes, x.Whole tokens

/-- The nodes of a whole expression are joined. -/
def Expr.Joined (e : Expr) : Prop :=
  Each (Node.Joined tokens) (e.walk fun _ => .parts) ∧ e.Whole tokens

/-- The nodes of a statement are joined. -/
def Stmt.Joined (s : Stmt) : Prop := Each (Node.Joined tokens) (s.walk fun _ => .parts)

/-- The nodes of statements are joined. -/
def JoinedStmts (ss : List Stmt) : Prop :=
  Each (Node.Joined tokens) (walkStmts (fun _ => .parts) ss)

/-- The nodes of arms are joined. -/
def JoinedArms (arms : List Arm) : Prop :=
  ∀ a ∈ arms, a.test.Joined tokens ∧ JoinedStmts tokens a.body

end Joined

section Nodes

variable {tokens : List Token}

theorem Expr.joined_missing : Expr.Joined tokens .missing := ⟨each_nil, nofun⟩

variable {p : Pos} {subject cond : Expr} {arms : List Arm} {yes no : List Stmt}

theorem JoinedArms.each (h : JoinedArms tokens arms) :
    Each (Node.Joined tokens) (walkArms (fun _ => .parts) arms) :=
  each_arms.2 fun a ha => ⟨(h a ha).1.1, (h a ha).2⟩

/-- The subject of a switch and the tests of its arms are whole. -/
theorem JoinedArms.wholes (h : JoinedArms tokens arms) (hs : subject.Joined tokens) :
    ∀ x ∈ subject :: arms.map Arm.test, x.Whole tokens :=
  forall_mem_cons.2 ⟨hs.2, forall_mem_map.2 fun a ha => (h a ha).1.2⟩

theorem Stmt.joined_ifElse (hc : cond.Joined tokens) (hy : JoinedStmts tokens yes)
    (hn : JoinedStmts tokens no) : Stmt.Joined tokens (.ifElse p cond yes no) :=
  each_listed.2 ⟨forall_mem_singleton.2 hc.2,
    each_append.2 ⟨each_append.2 ⟨hc.1, hy⟩, hn⟩⟩

end Nodes

/-! ### Places -/

namespace Cursor

variable {tokens : List Token} {c c₁ c₂ : Cursor} {i j m n : Nat} {moved : Bool}

/-- The cursor stands in the tokens with fewer than `n` of them left. -/
structure In (tokens : List Token) (n : Nat) (c : Cursor) : Prop where
  eq : c.past.reverse ++ c.rest = tokens
  lt : c.rest.length < n

namespace In

theorem reads (h : c.In tokens n) (hr : c.Reads moved i j c₁) : c₁.In tokens n := by
  obtain ⟨used, hrest, hpast, -⟩ := hr
  have hlt := h.lt
  rw [hrest, length_append] at hlt
  refine ⟨?_, by omega⟩
  rw [hpast, reverse_append, reverse_reverse, append_assoc, ← hrest, h.eq]

/-- One token fewer is left behind one that is read. -/
theorem next (h : c.In tokens n) (hr : c.Reads true i j c₁) : c₁.In tokens (n - 1) := by
  have hlt := h.lt
  have hless := hr.length_lt
  exact ⟨(h.reads hr).eq, by omega⟩

theorem mono (h : c.In tokens n) (hn : n ≤ m) : c.In tokens m := ⟨h.eq, Nat.lt_of_lt_of_le h.lt hn⟩

end In

/-- The number of brackets that are open. -/
def level (c : Cursor) : Nat := Token.levelAfter 0 c.past.reverse

theorem Reads.level_eq (h : c.Reads moved 0 j c₁) : c₁.level = c.level + j := by
  obtain ⟨used, -, hpast, hlevel, -⟩ := h
  rw [level, hpast, reverse_append, reverse_reverse, Token.levelAfter_append]
  exact hlevel c.level

/-- No bracket is open where a block opens. -/
theorem In.level_eq_zero (h : c.In tokens n) (hflat : Token.Flat tokens)
    (hk : c.peek.kind = .indent) : c.level = 0 := by
  refine hflat c.past.reverse c.peek c.advance.rest ?_ hk
  rw [← rest_eq_cons (by simp [hk]), h.eq]

theorem kind_peek_of_length_le_zero (h : c.rest.length ≤ 0) : c.peek.kind = .eof := by
  rw [peek, eq_nil_of_length_eq_zero (Nat.le_zero.1 h), kind_endAfter]

/-- The cursor moved outside of brackets up to the end of a block. -/
structure ReadsBlock (c c' : Cursor) : Prop where
  reads : c.Reads true 0 0 c'
  level : c.level = 0
  closed : c'.lastKind = .dedent ∨ c'.peek.kind = .eof

theorem ReadsBlock.after (h : c.Reads moved 0 0 c₁) (h' : c₁.ReadsBlock c₂) : c.ReadsBlock c₂ :=
  ⟨h.weaken.trans h'.reads, h.level_eq.symm.trans h'.level, h'.closed⟩

/-- An expression was read: its nodes are joined, and if it ends in a block, no bracket was open,
and the token behind the block is one on which reading stops. -/
structure Ends (tokens : List Token) (stops : Token → Prop) (c : Cursor) (e : Expr) (c' : Cursor) :
    Prop where
  reads : c.Reads true 0 0 c'
  joined : Each (Node.Joined tokens) (e.walk fun _ => .parts)
  block : ∀ form, e.block? = some form →
    c.level = 0 ∧ c'.AfterBlock tokens form ∧ stops c'.peek

namespace Ends

variable {stops stops' : Token → Prop} {e head : Expr}

theorem of_none (hr : c.Reads true 0 0 c₁)
    (hj : Each (Node.Joined tokens) (e.walk fun _ => .parts)) (hb : e.block? = none) :
    c.Ends tokens stops e c₁ :=
  ⟨hr, hj, fun form hf => by rw [hb] at hf; cases hf⟩

theorem after (hr : c.Reads moved 0 0 c₁) (h : c₁.Ends tokens stops e c₂) :
    c.Ends tokens stops e c₂ := by
  refine ⟨hr.weaken.trans h.reads, h.joined, fun form hf => ?_⟩
  obtain ⟨hlevel, hblock⟩ := h.block form hf
  exact ⟨hr.level_eq.symm.trans hlevel, hblock⟩

/-- An expression ends where its last part does. -/
theorem tail (h : c.Ends tokens stops e c₁) (hb : head.block? = e.block?)
    (hj : Each (Node.Joined tokens) (head.walk fun _ => .parts)) : c.Ends tokens stops head c₁ :=
  ⟨h.reads, hj, fun form hf => h.block form (hb ▸ hf)⟩

theorem stop (h : c.Ends tokens stops e c₁) (hs : stops c₁.peek → stops' c₁.peek) :
    c.Ends tokens stops' e c₁ :=
  ⟨h.reads, h.joined, fun form hf => (h.block form hf).imp_right (.imp_right hs)⟩

theorem continued (h : c.Ends tokens stops head c₁) (he : head.Extends c₁.peek e) :
    e.Continued tokens head :=
  fun form hf => ⟨c₁, (h.block form hf).2.1, he⟩

theorem whole (h : c.Ends tokens (Token.Stops Token.joining) e c₁) : e.Joined tokens :=
  ⟨h.joined, fun form hf => ⟨c₁, (h.block form hf).2⟩⟩

end Ends

/-- Nothing inside of brackets ends in a block. -/
theorem Ends.block?_eq_none {stops : Token → Prop} {e : Expr} (h : c₁.Ends tokens stops e c₂)
    (hr : c.Reads moved 0 1 c₁) : e.block? = none := by
  cases hb : e.block? with
  | none => rfl
  | some form =>
    have hzero := (h.block form hb).1
    rw [hr.level_eq] at hzero
    cases hzero

end Cursor

/-! ### Parsers of joined trees -/

namespace Parser

/-- Where fewer than `n` tokens are left, every result has a property, and the tokens read have
matching brackets. -/
def Joins {α : Type} (tokens : List Token) (n : Nat) (P : α → Prop) (p : Parser α) : Prop :=
  ∀ c : Cursor, c.In tokens n → Ensures p c fun a c' => P a ∧ c.Reads true 0 0 c'

end Parser

namespace Grammar

open Pine.Parser

/-! ### Rules for the parts -/

/-- The rules for the parts are those of the closed grammar and yield joined trees. -/
structure Rules.Joins (tokens : List Token) (r : Rules) : Prop where
  flat : Token.Flat tokens
  sound : r.Sound
  closed : r = ⟨r.fuel, exprAt r.fuel, stmtAt r.fuel⟩
  expr : ∀ d c, c.In tokens r.fuel →
    Ensures (r.expr d) c (c.Ends tokens (Token.Stops Token.joining))
  stmt : ∀ d, (r.stmt d).Joins tokens (r.fuel - 1) (Stmt.Joined tokens)

namespace Rules

variable {tokens : List Token} {r : Rules} (hr : r.Joins tokens) (d : Nesting)

include hr

theorem whole_joins : (r.expr d).Joins tokens r.fuel (Expr.Joined tokens) :=
  fun c hc => (hr.expr d c hc).mono fun _ _ h => ⟨h.whole, h.reads⟩

/-! ### Lists of expressions -/

theorem arg_joins : (r.arg d).Joins tokens r.fuel fun a => a.value.Joined tokens := by
  intro c hc
  refine ensures_peek (ensures_peekNext ?_)
  split
  · next h =>
    simp only [Bool.and_eq_true, Bool.or_eq_true, decide_eq_true_eq] at h
    obtain ⟨hname, hop⟩ := h
    have hread := Cursor.reads_advance_word hname
    rw [← Cursor.peek_advance (by rcases hname with hk | hk <;> simp [hk])] at hop
    have hread := hread.trans (reads_advance_op hop)
    refine ensures_advance (ensures_advance ?_)
    refine (whole_joins hr d _ (hc.reads hread)).bind fun e c₁ ⟨he, h₁⟩ => ?_
    exact ensures_pure ⟨he, hread.trans h₁⟩
  · exact (whole_joins hr d c hc).bind fun e c₁ h => ensures_pure h

section Lists

variable {α : Type} {item : Parser α} {P : α → Prop} {n : Nat}

omit hr

theorem items_joins {close : Token.Kind} (h : item.Joins tokens n P) : (k : Nat) → (c : Cursor) →
    c.In tokens n → Ensures (items close item k) c fun as c' =>
      (∀ a ∈ as, P a) ∧ c.Reads false 0 0 c'
  | 0, c, _ => ensures_pure ⟨by simp, .refl c⟩
  | k + 1, c, hc => by
    refine ensures_peek ?_
    split
    · exact ensures_pure ⟨by simp, .refl c⟩
    · refine (h c hc).bind fun a c₁ ⟨ha, h₁⟩ => ensures_peek ?_
      split
      · next hk =>
        have h₁ := h₁.trans (Cursor.reads_advance_kind hk)
        refine ensures_advance ?_
        refine (items_joins h k _ (hc.reads h₁)).bind fun as c₂ ⟨has, h₂⟩ => ?_
        exact ensures_pure ⟨forall_mem_cons.2 ⟨ha, has⟩, (h₁.trans h₂).weaken⟩
      · exact ensures_pure ⟨forall_mem_singleton.2 ha, h₁.weaken⟩

/-- A block ends with a token of its own or at the end of input, if the bound is past the number of
tokens left. -/
theorem lines_joins (h : item.Joins tokens n P) : (k : Nat) → (c : Cursor) → c.In tokens n →
    c.rest.length ≤ k → Ensures (lines item k) c fun as c' => (∀ a ∈ as, P a) ∧
      c.Reads false 0 0 c' ∧ (c'.lastKind = .dedent ∨ c'.peek.kind = .eof)
  | 0, c, _, hk =>
    ensures_pure ⟨by simp, .refl c, .inr (Cursor.kind_peek_of_length_le_zero hk)⟩
  | k + 1, c, hc, hk => by
    refine ensures_peek ?_
    split
    · next hkind =>
      have h₁ : c.Reads true 0 0 c.advance := Cursor.reads_advance_kind hkind
      have hless := h₁.length_lt
      refine ensures_advance ?_
      refine (lines_joins h k _ (hc.reads h₁) (by omega)).mono fun as c₂ ⟨has, h₂, hend⟩ => ?_
      exact ⟨has, (h₁.trans h₂).weaken, hend⟩
    · next hkind =>
      have hlast := Cursor.head?_past_advance (c := c) (by simp [hkind])
      refine ensures_advance (ensures_pure ⟨by simp, ?_, .inl ?_⟩)
      · exact (Cursor.reads_advance_kind hkind).weaken
      · rw [Cursor.lastKind]
        split
        · next t past hpast => rw [hpast] at hlast; cases hlast; exact hkind
        · next hpast => rw [hpast] at hlast; cases hlast
    · next hkind => exact ensures_pure ⟨by simp, .refl c, .inr hkind⟩
    · refine (h c hc).bind fun a c₁ ⟨ha, h₁⟩ => ?_
      have hless := h₁.length_lt
      refine (lines_joins h k c₁ (hc.reads h₁) (by omega)).bind fun as c₂ ⟨has, h₂, hend⟩ => ?_
      exact ensures_pure ⟨forall_mem_cons.2 ⟨ha, has⟩, (h₁.trans h₂).weaken, hend⟩

end Lists

theorem args_joins :
    (r.args d).Joins tokens (r.fuel + 1) fun args => ∀ a ∈ args, a.value.Joined tokens := by
  intro c hc
  refine (ensures_expect .lparen c).bind fun _ c₁ ⟨_, h₁⟩ => ?_
  refine (items_joins (arg_joins hr d) r.fuel c₁ (hc.next h₁)).bind fun args c₂ ⟨ha, h₂⟩ => ?_
  refine (ensures_expect .rparen c₂).bind fun _ c₃ ⟨_, h₃⟩ => ?_
  exact ensures_pure ⟨ha, h₁.within h₂ h₃⟩

/-! ### Statements on a line and blocks -/

theorem simple_joins : (r.simple d).Joins tokens r.fuel (Stmt.Joined tokens) := by
  intro c hc
  refine ensures_peek ((whole_joins hr d c hc).bind fun e c₁ ⟨he, h₁⟩ => ensures_peek ?_)
  have hassign {op : AssignOp} {value : Expr} (hv : value.Joined tokens) :
      Stmt.Joined tokens (.assign c.peek.pos e op value) :=
    each_listed.2 ⟨forall_mem_cons.2 ⟨he.2, forall_mem_singleton.2 hv.2⟩,
      each_append.2 ⟨he.1, hv.1⟩⟩
  split
  · next hop =>
    have h₁ := h₁.trans (reads_advance_op hop)
    refine ensures_advance ((whole_joins hr d _ (hc.reads h₁)).bind fun value c₂ ⟨hv, h₂⟩ => ?_)
    split
    · exact ensures_pure ⟨each_listed.2 ⟨forall_mem_singleton.2 hv.2, hv.1⟩, h₁.trans h₂⟩
    · exact ensures_pure ⟨hassign hv, h₁.trans h₂⟩
    · exact ensures_fail _ _
  · split
    · next hop =>
      obtain ⟨op, -, hop⟩ := any_eq_true.1 hop
      have h₁ := h₁.trans (reads_advance_op hop)
      refine ensures_advance ((whole_joins hr d _ (hc.reads h₁)).bind fun value c₂ ⟨hv, h₂⟩ => ?_)
      split
      · exact ensures_pure ⟨hassign hv, h₁.trans h₂⟩
      · exact ensures_pure ⟨hassign hv, h₁.trans h₂⟩
      · exact ensures_fail _ _
    · exact ensures_pure ⟨each_listed.2 ⟨forall_mem_singleton.2 he.2, he.1⟩, h₁⟩

/-- A block stands outside of brackets. -/
theorem block_joins (c : Cursor) (hc : c.In tokens (r.fuel + 1)) :
    Ensures (r.block d) c fun ss c' => JoinedStmts tokens ss ∧ c.ReadsBlock c' := by
  refine (ensures_enter d c).bind fun d _ hd => ?_
  subst hd
  refine (ensures_expect .newline _).bind fun _ c₁ ⟨_, h₁⟩ => ?_
  have hc₁ : c₁.In tokens r.fuel := hc.next h₁
  refine (ensures_expect .indent c₁).bind fun _ c₂ ⟨hk, h₂⟩ => ?_
  have hc₂ : c₂.In tokens (r.fuel - 1) := hc₁.next h₂
  have hlt := hc₂.lt
  refine (lines_joins (hr.stmt d) r.fuel c₂ hc₂ (by omega)).mono fun ss c₃ ⟨hs, h₃, hend⟩ => ?_
  exact ⟨each_stmts.2 hs, .after h₁ ⟨h₂.trans h₃, hc₁.level_eq_zero hr.flat hk, hend⟩⟩

theorem body_joins : (r.body d).Joins tokens r.fuel (JoinedStmts tokens) := by
  intro c hc
  refine ensures_peek ?_
  split
  · exact (block_joins hr d c (hc.mono (Nat.le_succ _))).mono fun ss c₁ ⟨hs, h₁⟩ => ⟨hs, h₁.reads⟩
  · refine (simple_joins hr d c hc).bind fun s c₁ ⟨hs, h₁⟩ => ?_
    exact ensures_pure ⟨each_append.2 ⟨hs, each_nil⟩, h₁⟩

/-! ### Switch and if -/

theorem arm_joins : (r.arm d).Joins tokens r.fuel fun a =>
    a.test.Joined tokens ∧ JoinedStmts tokens a.body := by
  intro c hc
  refine ensures_peek ?_
  extract_lets later
  have hlater (test : Expr) (c₁ : Cursor) (ht : test.Joined tokens) (h₁ : c.Reads false 0 0 c₁) :
      Ensures (later test) c₁ fun a c' =>
        (a.test.Joined tokens ∧ JoinedStmts tokens a.body) ∧ c.Reads true 0 0 c' := by
    refine (ensures_expectOp "=>" c₁).bind fun _ c₂ ⟨_, h₂⟩ => ?_
    have h₂ := h₁.trans h₂
    refine (body_joins hr d c₂ (hc.reads h₂)).bind fun body c₃ ⟨hb, h₃⟩ => ?_
    refine (ensures_endStatement c₃).bind fun _ c₄ h₄ => ?_
    exact ensures_pure ⟨⟨ht, hb⟩, h₂.trans (h₃.trans h₄)⟩
  split
  · exact hlater _ c Expr.joined_missing (.refl c)
  · exact (whole_joins hr d c hc).bind fun e c₁ ⟨he, h₁⟩ => hlater e c₁ he h₁.weaken

theorem switchParts_joins (c : Cursor) (hc : c.In tokens (r.fuel + 1)) :
    Ensures (r.switchParts d) c fun parts c' =>
      (parts.1.Joined tokens ∧ JoinedArms tokens parts.2) ∧ c.ReadsBlock c' := by
  refine (ensures_expectKeyword "switch" c).bind fun _ c₁ h₁ => ensures_peek ?_
  extract_lets later
  have hlater (subject : Expr) (c₂ : Cursor) (hs : subject.Joined tokens)
      (h₂ : c.Reads true 0 0 c₂) : Ensures (later subject) c₂ fun parts c' =>
        (parts.1.Joined tokens ∧ JoinedArms tokens parts.2) ∧ c.ReadsBlock c' := by
    refine (ensures_enter d c₂).bind fun d _ hd => ?_
    subst hd
    refine (ensures_expect .newline _).bind fun _ c₃ ⟨_, h₃⟩ => ?_
    have h₃ := h₂.trans h₃
    have hc₃ : c₃.In tokens r.fuel := hc.next h₃
    refine (ensures_expect .indent c₃).bind fun _ c₄ ⟨hk, h₄⟩ => ?_
    have hc₄ : c₄.In tokens r.fuel := hc₃.reads h₄
    have hlt := Nat.le_of_lt hc₄.lt
    refine (lines_joins (arm_joins hr d) r.fuel c₄ hc₄ hlt).bind fun as c₅ ⟨ha, h₅, hend⟩ => ?_
    exact ensures_pure ⟨⟨hs, ha⟩, .after h₃ ⟨h₄.trans h₅, hc₃.level_eq_zero hr.flat hk, hend⟩⟩
  split
  · exact hlater _ c₁ Expr.joined_missing h₁
  · refine (whole_joins hr d c₁ (hc.next h₁)).bind fun e c₂ ⟨he, h₂⟩ => ?_
    exact hlater e c₂ he (h₁.trans h₂)

theorem ifParts_joins : (n : Nat) → (c : Cursor) → c.In tokens (r.fuel + 1) →
    Ensures (r.ifParts d n) c fun parts c' => (parts.1.Joined tokens ∧
      JoinedStmts tokens parts.2.1 ∧ JoinedStmts tokens parts.2.2) ∧ c.ReadsBlock c'
  | 0, _, _ => ensures_unexpected
  | n + 1, c, hc => by
    refine (ensures_expectKeyword "if" c).bind fun _ c₁ h₁ => ?_
    refine (whole_joins hr d c₁ (hc.next h₁)).bind fun cond c₂ ⟨hcond, h₂⟩ => ?_
    have h₂ := h₁.trans h₂
    refine (block_joins hr d c₂ (hc.reads h₂)).bind fun yes c₃ ⟨hy, h₃⟩ => ensures_peek ?_
    have h₃ := Cursor.ReadsBlock.after h₂ h₃
    split
    · next helse =>
      have h₄ := h₃.reads.trans (reads_advance_keyword helse)
      refine ensures_advance (ensures_peek ?_)
      split
      · refine (ifParts_joins n _ (hc.reads h₄)).bind fun parts c₅ ⟨⟨hp, hpy, hpn⟩, h₅⟩ => ?_
        exact ensures_pure ⟨⟨hcond, hy,
          each_append.2 ⟨Stmt.joined_ifElse hp hpy hpn, each_nil⟩⟩, .after h₄ h₅⟩
      · refine (block_joins hr d _ (hc.reads h₄)).bind fun no c₅ ⟨hn, h₅⟩ => ?_
        exact ensures_pure ⟨⟨hcond, hy, hn⟩, .after h₄ h₅⟩
    · exact ensures_pure ⟨⟨hcond, hy, each_nil⟩, h₃⟩

/-! ### Expressions -/

/-- Only a switch and an `if` end in a block, and both stand outside of brackets. -/
theorem primary_joins (c : Cursor) (hc : c.In tokens (r.fuel + 1)) :
    Ensures (r.primary d) c fun e c' =>
      (Each (Node.Joined tokens) (e.walk fun _ => .parts) ∧ c.Reads true 0 0 c') ∧
        ∀ form, e.block? = some form → form = e ∧ c.ReadsBlock c' := by
  have hleaf {e : Expr} (hh : e.heads = []) (hw : e.wholes = []) :
      Each (Node.Joined tokens) [.expr e] := by
    refine each_cons.2 ⟨⟨?_, ?_⟩, each_nil⟩
    · rw [hh]; exact nofun
    · rw [hw]; exact nofun
  refine ensures_peek ?_
  split
  case h_1 hk | h_2 hk | h_3 hk | h_4 hk | h_6 hk =>
    exact ensures_advance (ensures_pure
      ⟨⟨hleaf rfl rfl, Cursor.reads_advance_kind hk⟩, nofun⟩)
  case h_5 hk =>
    refine ensures_advance (ensures_peek ?_)
    split
    all_goals exact ensures_pure ⟨⟨hleaf rfl rfl, Cursor.reads_advance_kind hk⟩, nofun⟩
  case h_7 hk =>
    have h : c.Reads true 0 1 c.advance := Cursor.reads_advance_kind hk
    refine ensures_advance ((hr.expr d _ (hc.next h)).bind fun e c₁ h₁ => ?_)
    refine (ensures_expect .rparen c₁).bind fun _ c₂ ⟨_, h₂⟩ => ensures_pure ?_
    refine ⟨⟨h₁.joined, h.within h₁.reads h₂⟩, fun form hf => ?_⟩
    rw [h₁.block?_eq_none h] at hf
    cases hf
  case h_8 hk =>
    have h : c.Reads true 0 1 c.advance := Cursor.reads_advance_kind hk
    refine ensures_advance ?_
    refine (items_joins (whole_joins hr d) r.fuel _ (hc.next h)).bind fun es c₁ ⟨he, h₁⟩ => ?_
    refine (ensures_expect .rbracket c₁).bind fun _ c₂ ⟨_, h₂⟩ => ensures_pure ?_
    refine ⟨⟨each_listed.2 ⟨⟨nofun, fun x hx => (he x hx).2⟩, ?_⟩, h.within h₁ h₂⟩, nofun⟩
    exact each_exprs.2 fun x hx => (he x hx).1
  case h_9 =>
    split
    · refine (switchParts_joins hr d c hc).bind fun parts c₁ ⟨⟨hs, ha⟩, h⟩ => ensures_pure ?_
      refine ⟨⟨each_listed.2 ⟨⟨nofun, ha.wholes hs⟩, ?_⟩, h.reads⟩, fun form hf => ?_⟩
      · exact each_append.2 ⟨hs.1, ha.each⟩
      · exact ⟨(Option.some.inj hf).symm, h⟩
    · split
      · refine (ifParts_joins hr d r.fuel c hc).bind fun parts c₁ h => ensures_pure ?_
        obtain ⟨⟨hcond, hy, hn⟩, h⟩ := h
        refine ⟨⟨each_listed.2 ⟨⟨nofun, ?_⟩, ?_⟩, h.reads⟩, fun form hf => ?_⟩
        · exact forall_mem_singleton.2 hcond.2
        · exact each_append.2 ⟨each_append.2 ⟨hcond.1, hy⟩, hn⟩
        · exact ⟨(Option.some.inj hf).symm, h⟩
      · exact ensures_fail _ _
  case h_10 => exact ensures_fail _ _

theorem primary_ends (c : Cursor) (hc : c.In tokens (r.fuel + 1)) :
    Ensures (r.primary d) c (c.Ends tokens fun _ => True) := by
  intro e c' he
  obtain ⟨⟨hj, hreads⟩, hblock⟩ := primary_joins hr d c hc e c' he
  refine ⟨hreads, hj, fun form hf => ?_⟩
  obtain ⟨rfl, h⟩ := hblock form hf
  refine ⟨h.level, ⟨⟨r.fuel, d.depth, d.limit, c, hc.eq, hreads, ?_⟩, h.closed⟩, trivial⟩
  have hmirrors := Rule.mirrors_free (Nat.le_refl r.fuel) (Nat.le_refl r.fuel)
  have hrun := (hmirrors.primary (Nat.le_of_lt_succ hc.lt)).agrees d
  rw [rulesAt, ← hr.closed, he] at hrun
  exact hrun

omit hr in
/-- What type arguments may follow does not end in a block. -/
theorem block?_of_isCallee {e : Expr} (h : isCallee e = true) : e.block? = none := by
  cases e with
  | name | member => rfl
  | _ => cases h

/-- Suffixes go on as long as the next token is one that starts a suffix. -/
theorem suffixes_ends {c₀ : Cursor} : (n : Nat) → (e : Expr) → (c : Cursor) →
    c.In tokens (r.fuel + 1) → c.rest.length ≤ n → c₀.Ends tokens (fun _ => True) e c →
    Ensures (r.suffixes d n e) c (c₀.Ends tokens (Token.Stops []))
  | 0, e, c, _, hn, h =>
    ensures_pure (h.stop fun _ => Token.stops_of_eof (Cursor.kind_peek_of_length_le_zero hn))
  | n + 1, e, c, hc, hn, h => by
    -- a longer expression does not end in a block, whatever it goes on with
    have hnext {c₁ : Cursor} {e' : Expr} (h₁ : c.Reads true 0 0 c₁)
        (hj : Each (Node.Joined tokens) (e'.walk fun _ => .parts)) (hb : e'.block? = none) :
        Ensures (r.suffixes d n e') c₁ (c₀.Ends tokens (Token.Stops [])) := by
      have hless := h₁.length_lt
      exact suffixes_ends n e' c₁ (hc.reads h₁) (by omega) (.of_none (h.reads.trans h₁) hj hb)
    have hcall {args : List Arg} {types : List String}
        (hhead : Expr.Continued tokens (.call e.pos 0 e args types) e)
        (ha : ∀ a ∈ args, a.value.Joined tokens) : Each (Node.Joined tokens)
          (Expr.walk (fun _ => .parts) (.call e.pos 0 e args types)) :=
      each_cons.2 ⟨⟨forall_mem_singleton.2 hhead,
        forall_mem_map.2 fun a hmem => (ha a hmem).2⟩,
        each_append.2 ⟨h.joined, each_args.2 fun a hmem => (ha a hmem).1⟩⟩
    refine ensures_peek ?_
    split
    · next hk =>
      refine (args_joins hr d c hc).bind fun args c₁ ⟨ha, h₁⟩ => ?_
      exact hnext h₁ (hcall (h.continued (.call hk)) ha) rfl
    · next hk =>
      refine ensures_advance (ensures_peek ?_)
      split
      · next hname =>
        simp only [Bool.or_eq_true, decide_eq_true_eq] at hname
        have hread := Cursor.reads_advance_word hname
        refine ensures_advance (hnext ((Cursor.reads_advance_kind hk).trans hread) ?_ rfl)
        exact each_listed.2 ⟨⟨forall_mem_singleton.2 (h.continued (.member hk)), nofun⟩,
          h.joined⟩
      · exact ensures_fail _ _
    · next hk =>
      have hopen : c.Reads true 0 1 c.advance := Cursor.reads_advance_kind hk
      refine ensures_advance ?_
      refine (whole_joins hr d _ (hc.next hopen)).bind fun offset c₁ ⟨ho, h₁⟩ => ?_
      refine (ensures_expect .rbracket c₁).bind fun _ c₂ ⟨_, h₂⟩ => ?_
      refine hnext (hopen.within h₁ h₂) (each_listed.2 ⟨⟨?_, ?_⟩, ?_⟩) rfl
      · exact forall_mem_singleton.2 (h.continued (.index hk))
      · exact forall_mem_singleton.2 ho.2
      · exact each_append.2 ⟨h.joined, ho.1⟩
    · next hparen hdot hbracket =>
      have hstop : c.peek.Stops [] := ⟨hparen, hbracket, hdot, nofun⟩
      split
      · next hcallee =>
        have hnone := block?_of_isCallee (Bool.and_eq_true_iff.1 hcallee).2
        refine (callTypeArgs_yields r.fuel c).ensures.attempt.bind fun types c₁ h₁ => ?_
        cases types with
        | none =>
          cases h₁
          exact ensures_pure (h.stop fun _ => hstop)
        | some types =>
          have h₁ : c.Reads true 0 0 c₁ := h₁.2
          refine (args_joins hr d c₁ (hc.reads h₁)).bind fun args c₂ ⟨ha, h₂⟩ => ?_
          refine hnext (h₁.trans h₂) (hcall (fun form hf => ?_) ha) rfl
          rw [hnone] at hf
          cases hf
      · exact ensures_pure (h.stop fun _ => hstop)

theorem suffixed_ends (c : Cursor) (hc : c.In tokens (r.fuel + 1)) :
    Ensures (r.suffixed d) c (c.Ends tokens (Token.Stops [])) := by
  refine (primary_ends hr d c hc).bind fun e c₁ h₁ => ?_
  have hc₁ := hc.reads h₁.reads
  exact suffixes_ends hr d r.fuel e c₁ hc₁ (Nat.le_of_lt_succ hc₁.lt) h₁

theorem unary_ends : (n : Nat) → (d : Nesting) → (c : Cursor) → c.In tokens (r.fuel + 1) →
    Ensures (r.unary n d) c (c.Ends tokens (Token.Stops []))
  | 0, _, _, _ => ensures_unexpected
  | n + 1, d, c, hc => by
    refine ensures_peek ?_
    split
    · next h =>
      obtain ⟨s, -, hop⟩ := any_eq_true.1 h
      refine (ensures_enter d c).bind fun d _ hd => ?_
      subst hd
      have h₁ := reads_advance_op hop
      refine ensures_advance ((unary_ends n d _ (hc.reads h₁)).bind fun operand c₂ h₂ => ?_)
      exact ensures_pure ((h₂.after h₁).tail rfl (each_listed.2 ⟨⟨nofun, nofun⟩, h₂.joined⟩))
    · exact suffixed_ends hr d c hc

omit hr in
/-- Operators go on as long as the next token is one of the level. -/
theorem chain_ends {next : Parser Expr} {tighter : List String} {m : Nat}
    (h : ∀ c, c.In tokens m → Ensures next c (c.Ends tokens (Token.Stops tighter)))
    (ops : List BinaryOp) {c₀ : Cursor} : (n : Nat) → (left : Expr) → (c : Cursor) →
    c.In tokens m → c.rest.length ≤ n → c₀.Ends tokens (Token.Stops tighter) left c →
    Ensures (chain next ops n left) c
      (c₀.Ends tokens (Token.Stops (ops.map BinaryOp.spelling ++ tighter)))
  | 0, left, c, _, hn, hl =>
    ensures_pure (hl.stop fun _ => Token.stops_of_eof (Cursor.kind_peek_of_length_le_zero hn))
  | n + 1, left, c, hc, hn, hl => by
    refine ensures_peek ?_
    split
    · next hany =>
      obtain ⟨op, -, hop⟩ := any_eq_true.1 hany
      have h₁ := reads_advance_op hop
      refine ensures_advance ((h _ (hc.reads h₁)).bind fun right c₂ h₂ => ?_)
      have hright := h₂.after (hl.reads.trans h₁)
      have hread := h₁.trans h₂.reads
      have hless := hread.length_lt
      refine chain_ends h ops n _ c₂ (hc.reads hread) (by omega) (hright.tail rfl ?_)
      have hext : left.Extends c.peek
          (.binary c.peek.pos (.ofSpelling c.peek.lexeme) left right) :=
        .binary (by rw [BinaryOp.spelling_ofSpelling, (Token.isOp_iff.1 hop).2, hop])
      exact each_listed.2 ⟨⟨forall_mem_singleton.2 (hl.continued hext), nofun⟩,
        each_append.2 ⟨hl.joined, h₂.joined⟩⟩
    · next hnone =>
      refine ensures_pure (hl.stop fun hstop => { hstop with isOp := fun s hs => ?_ })
      rcases mem_append.1 hs with hs | hs
      · obtain ⟨op, hmem, rfl⟩ := mem_map.1 hs
        exact Bool.eq_false_iff.2 fun hop => hnone (any_eq_true.2 ⟨op, hmem, hop⟩)
      · exact hstop.isOp s hs

theorem binary_ends : (levels : List (List BinaryOp)) → (c : Cursor) →
    c.In tokens (r.fuel + 1) → Ensures (r.binary d levels) c
      (c.Ends tokens (Token.Stops (levels.flatten.map BinaryOp.spelling)))
  | [], c, hc => unary_ends hr r.fuel d c hc
  | ops :: tighter, c, hc => by
    refine (binary_ends tighter c hc).bind fun left c₁ h₁ => ?_
    have hc₁ := hc.reads h₁.reads
    rw [flatten_cons, map_append]
    exact chain_ends (binary_ends tighter) ops r.fuel left c₁ hc₁ (Nat.le_of_lt_succ hc₁.lt) h₁

theorem expression_ends (c : Cursor) (hc : c.In tokens (r.fuel + 1)) :
    Ensures (r.expression d) c (c.Ends tokens (Token.Stops Token.joining)) := by
  refine (ensures_enter d c).bind fun d _ hd => ?_
  subst hd
  refine (binary_ends hr d levels _ hc).bind fun cond c₁ h₁ => ensures_peek ?_
  split
  · next hop =>
    have hread := h₁.reads.trans (reads_advance_op hop)
    refine ensures_advance ((hr.expr d _ (hc.next hread)).bind fun yes c₂ h₂ => ?_)
    refine (ensures_expect .colon c₂).bind fun _ c₃ ⟨hk, h₃⟩ => ?_
    have hread₃ := hread.trans (h₂.reads.trans h₃)
    refine (hr.expr d c₃ (hc.next hread₃)).bind fun no c₄ h₄ => ensures_pure ?_
    refine (h₄.after hread₃).tail rfl (each_listed.2 ⟨⟨?_, nofun⟩, ?_⟩)
    · exact forall_mem_cons.2 ⟨h₁.continued (.cond hop),
        forall_mem_singleton.2 (h₂.continued (.yes hk))⟩
    · exact each_append.2 ⟨each_append.2 ⟨h₁.joined, h₂.joined⟩, h₄.joined⟩
  · next hop =>
    refine ensures_pure (h₁.stop fun hstop => { hstop with isOp := ?_ })
    exact forall_mem_cons.2 ⟨Bool.eq_false_iff.2 hop, hstop.isOp⟩

/-! ### Declarations -/

theorem declValue_joins (head : DeclHead) :
    (r.declValue d head).Joins tokens r.fuel (Stmt.Joined tokens) := by
  intro c hc
  refine (whole_joins hr d c hc).bind fun value c₁ ⟨hv, h₁⟩ => ?_
  refine (ensures_endStatement c₁).bind fun _ c₂ h₂ => ?_
  exact ensures_pure ⟨each_listed.2 ⟨forall_mem_singleton.2 hv.2, hv.1⟩, h₁.trans h₂⟩

theorem funcBody_joins (head : FuncHead) (isMethod : Bool) :
    (r.funcBody d head isMethod).Joins tokens r.fuel (Stmt.Joined tokens) := by
  intro c hc
  refine (body_joins hr d c hc).bind fun body c₁ ⟨hb, h₁⟩ => ?_
  refine (ensures_endStatement c₁).bind fun _ c₂ h₂ => ?_
  exact ensures_pure ⟨each_listed.2 ⟨nofun, hb⟩, h₁.trans h₂⟩

theorem field_joins : (r.field d).Joins tokens r.fuel fun f => f.initial.Joined tokens := by
  intro c hc
  refine ensures_peek ?_
  extract_lets later
  have hlater (c₁ : Cursor) (h₁ : c.Reads false 0 0 c₁) : Ensures (later ()) c₁ fun f c' =>
      f.initial.Joined tokens ∧ c.Reads true 0 0 c' := by
    refine (typedName_yields r.fuel c₁).ensures.bind fun t c₂ ⟨_, h₂⟩ => ensures_peek ?_
    have h₂ := h₁.trans h₂
    extract_lets close
    have hclose (initial : Expr) (c₃ : Cursor) (hi : initial.Joined tokens)
        (h₃ : c.Reads true 0 0 c₃) : Ensures (close initial) c₃ fun f c' =>
          f.initial.Joined tokens ∧ c.Reads true 0 0 c' := by
      refine (ensures_endStatement c₃).bind fun _ c₄ h₄ => ?_
      exact ensures_pure ⟨hi, h₃.trans h₄⟩
    split
    · next hop =>
      have h₃ := h₂.trans (reads_advance_op hop)
      refine ensures_advance ((whole_joins hr d _ (hc.reads h₃)).bind fun e c₄ ⟨he, h₄⟩ => ?_)
      exact hclose e c₄ he (h₃.trans h₄)
    · exact hclose _ c₂ Expr.joined_missing h₂
  split
  · next hk => exact ensures_advance (hlater _ (reads_advance_keyword hk).weaken)
  · exact hlater c (.refl c)

theorem typeDecl_joins {c : Cursor} (hc : c.In tokens r.fuel) (hk : c.peek.kind = .keyword) :
    Ensures (r.typeDecl d) c fun s c' => s.Joined tokens ∧ c.Reads true 0 0 c' := by
  refine ensures_advance ((ensures_expect .identifier _).bind fun _ c₁ ⟨_, h₁⟩ => ?_)
  refine (ensures_expect .newline c₁).bind fun _ c₂ ⟨_, h₂⟩ => ?_
  refine (ensures_expect .indent c₂).bind fun _ c₃ ⟨_, h₃⟩ => ?_
  have h := (Cursor.reads_advance_kind hk).trans (h₁.trans (h₂.trans h₃))
  have hc₃ := hc.reads h
  have hlt := Nat.le_of_lt hc₃.lt
  refine (lines_joins (field_joins hr d) r.fuel c₃ hc₃ hlt).bind fun fs c₄ ⟨hf, h₄, _⟩ => ?_
  refine ensures_pure ⟨each_listed.2 ⟨?_, each_fields.2 fun f hmem => (hf f hmem).1⟩, h.trans h₄⟩
  exact forall_mem_map.2 fun f hmem => (hf f hmem).2

omit hr in
theorem importLib_eq (c : Cursor) : Ensures r.importLib c fun s _ =>
    ∃ pos path localName, s = .importLib pos path localName := by
  refine ensures_advance (ensures_peek ?_)
  extract_lets later
  have hlater (path : String) (c₁ : Cursor) : Ensures (later path) c₁ fun s _ =>
      ∃ pos path localName, s = .importLib pos path localName := by
    unfold later
    split
    · exact ensures_peek (ensures_fail _ _)
    · refine ensures_peek ?_
      split
      · refine ensures_advance ((ensures_expect .identifier _).bind fun _ c₂ _ => ?_)
        exact (ensures_endStatement c₂).bind fun _ _ _ => ensures_pure ⟨_, _, _, rfl⟩
      · exact (ensures_endStatement c₁).bind fun _ _ _ => ensures_pure ⟨_, _, _, rfl⟩
  split
  · exact ensures_advance (hlater _ _)
  · exact (importPath_yields r.fuel _).ensures.bind fun path c₁ _ => hlater path c₁

/-! ### Loops -/

theorem forIn_joins (pos : Pos) (index item : String) :
    (r.forIn d pos index item).Joins tokens r.fuel (Stmt.Joined tokens) := by
  intro c hc
  refine (ensures_expectKeyword "in" c).bind fun _ c₁ h₁ => ?_
  refine (whole_joins hr d c₁ (hc.reads h₁)).bind fun collection c₂ ⟨he, h₂⟩ => ?_
  have h₂ := h₁.trans h₂
  have hc₂ := (hc.reads h₂).mono (Nat.le_succ _)
  refine (block_joins hr d c₂ hc₂).bind fun body c₃ ⟨hb, h₃⟩ => ?_
  refine (ensures_endStatement c₃).bind fun _ c₄ h₄ => ?_
  exact ensures_pure ⟨each_listed.2 ⟨forall_mem_singleton.2 he.2, each_append.2 ⟨he.1, hb⟩⟩,
    h₂.trans (h₃.reads.trans h₄)⟩

omit hr in
/-- The test that a counting loop makes up ends with its bound, and goes on after a name. -/
theorem countingLoop_joined (pos namePos : Pos) (counter : String) {first last step : Expr}
    {body : List Stmt} (hf : first.Joined tokens) (hl : last.Joined tokens)
    (hs : step.Joined tokens) (hb : JoinedStmts tokens body) :
    Stmt.Joined tokens (countingLoop pos namePos counter first last step body) := by
  have htarget : Expr.Joined tokens (.name namePos counter) :=
    ⟨each_cons.2 ⟨⟨nofun, nofun⟩, each_nil⟩, nofun⟩
  have hone : Expr.Joined tokens (.number namePos "1") :=
    ⟨each_cons.2 ⟨⟨nofun, nofun⟩, each_nil⟩, nofun⟩
  have hassign {op : AssignOp} {value : Expr} (hv : value.Joined tokens) :
      Stmt.Joined tokens (.assign namePos (.name namePos counter) op value) :=
    each_listed.2 ⟨forall_mem_cons.2 ⟨htarget.2, forall_mem_singleton.2 hv.2⟩,
      each_append.2 ⟨htarget.1, hv.1⟩⟩
  have htest (op : BinaryOp) :
      Expr.Joined tokens (.binary namePos op (.name namePos counter) last) :=
    ⟨each_listed.2 ⟨⟨forall_mem_singleton.2 nofun, nofun⟩,
      each_append.2 ⟨htarget.1, hl.1⟩⟩, hl.2⟩
  refine each_listed.2 ⟨forall_mem_singleton.2 (htest _).2,
    each_append.2 ⟨each_append.2 ⟨each_append.2 ⟨?_, (htest _).1⟩, ?_⟩, hb⟩⟩
  · exact each_listed.2 ⟨forall_mem_singleton.2 hf.2, hf.1⟩
  · split
    · exact hassign hs
    · split
      · exact hassign hone
      · exact hassign hone

theorem forLoop_joins {c : Cursor} (hc : c.In tokens r.fuel) (hk : c.peek.kind = .keyword) :
    Ensures (r.forLoop d) c fun s c' => s.Joined tokens ∧ c.Reads true 0 0 c' := by
  have h : c.Reads true 0 0 c.advance := Cursor.reads_advance_kind hk
  refine ensures_advance (ensures_peek ?_)
  split
  · next hb =>
    refine ensures_advance ((ensures_expect .identifier _).bind fun _ c₁ h₁ => ?_)
    refine (ensures_expect .comma c₁).bind fun _ c₂ h₂ => ?_
    refine (ensures_expect .identifier c₂).bind fun _ c₃ h₃ => ?_
    refine (ensures_expect .rbracket c₃).bind fun _ c₄ h₄ => ?_
    have h₄ := h.trans ((Cursor.reads_advance_kind hb).within (h₁.2.trans (h₂.2.trans h₃.2)) h₄.2)
    refine (forIn_joins hr d _ _ _ c₄ (hc.reads h₄)).mono fun s c₅ h₅ => ?_
    exact ⟨h₅.1, h₄.trans h₅.2⟩
  · refine (ensures_expect .identifier _).bind fun _ c₁ h₁ => ensures_peek ?_
    have h₁ := h.trans h₁.2
    split
    · refine (forIn_joins hr d _ _ _ c₁ (hc.reads h₁)).mono fun s c₂ h₂ => ?_
      exact ⟨h₂.1, h₁.trans h₂.2⟩
    · refine (ensures_expectOp "=" c₁).bind fun _ c₂ h₂ => ?_
      have h₂ := h₁.trans h₂.2
      refine (whole_joins hr d c₂ (hc.reads h₂)).bind fun first c₃ hf => ?_
      refine (ensures_expectKeyword "to" c₃).bind fun _ c₄ h₄ => ?_
      have h₄ := h₂.trans (hf.2.trans h₄)
      refine (whole_joins hr d c₄ (hc.reads h₄)).bind fun last c₅ hl => ensures_peek ?_
      have h₅ := h₄.trans hl.2
      extract_lets later
      have hlater (step : Expr) (c₆ : Cursor) (hs : step.Joined tokens)
          (h₆ : c.Reads true 0 0 c₆) : Ensures (later step) c₆ fun s c' =>
            s.Joined tokens ∧ c.Reads true 0 0 c' := by
        have hc₆ := (hc.reads h₆).mono (Nat.le_succ _)
        refine (block_joins hr d c₆ hc₆).bind fun body c₇ hb => ?_
        refine (ensures_endStatement c₇).bind fun _ c₈ h₈ => ?_
        exact ensures_pure ⟨countingLoop_joined _ _ _ hf.1 hl.1 hs hb.1,
          h₆.trans (hb.2.reads.trans h₈)⟩
      split
      · next hby =>
        have h₆ := h₅.trans (reads_advance_keyword hby)
        refine ensures_advance ((whole_joins hr d _ (hc.reads h₆)).bind fun e c₇ he => ?_)
        exact hlater e c₇ he.1 (h₆.trans he.2)
      · exact hlater _ c₅ Expr.joined_missing h₅

/-! ### Statements -/

theorem keywordStatement_joins {c : Cursor} (hc : c.In tokens r.fuel)
    (hk : c.peek.kind = .keyword) :
    Ensures (r.keywordStatement d) c fun s c' => s.Joined tokens ∧ c.Reads true 0 0 c' := by
  have h : c.Reads true 0 0 c.advance := Cursor.reads_advance_kind hk
  have hmore : c.In tokens (r.fuel + 1) := hc.mono (Nat.le_succ _)
  refine ensures_peek ?_
  split
  · refine (ifParts_joins hr d r.fuel c hmore).bind fun parts c₁ ⟨⟨hp, hy, hn⟩, h₁⟩ => ?_
    refine (ensures_endStatement c₁).bind fun _ c₂ h₂ => ?_
    exact ensures_pure ⟨Stmt.joined_ifElse hp hy hn, h₁.reads.trans h₂⟩
  · refine ensures_advance ((whole_joins hr d _ (hc.reads h)).bind fun cond c₁ ⟨he, h₁⟩ => ?_)
    have h₁ := h.trans h₁
    refine (block_joins hr d c₁ (hmore.reads h₁)).bind fun body c₂ ⟨hb, h₂⟩ => ?_
    refine (ensures_endStatement c₂).bind fun _ c₃ h₃ => ?_
    exact ensures_pure ⟨each_listed.2 ⟨forall_mem_singleton.2 he.2,
      each_append.2 ⟨he.1, hb⟩⟩, h₁.trans (h₂.reads.trans h₃)⟩
  · exact forLoop_joins hr d hc hk
  · refine (switchParts_joins hr d c hmore).bind fun parts c₁ ⟨⟨hs, ha⟩, h₁⟩ => ?_
    refine (ensures_endStatement c₁).bind fun _ c₂ h₂ => ?_
    exact ensures_pure ⟨each_listed.2 ⟨ha.wholes hs, each_append.2 ⟨hs.1, ha.each⟩⟩,
      h₁.reads.trans h₂⟩
  · refine ensures_advance (ensures_atLineEnd fun _ => ?_)
    extract_lets later
    have hlater (value : Expr) (c₁ : Cursor) (hv : value.Joined tokens)
        (h₁ : c.Reads true 0 0 c₁) : Ensures (later value) c₁ fun s c' =>
          s.Joined tokens ∧ c.Reads true 0 0 c' := by
      refine (ensures_endStatement c₁).bind fun _ c₂ h₂ => ?_
      exact ensures_pure ⟨each_listed.2 ⟨forall_mem_singleton.2 hv.2, hv.1⟩, h₁.trans h₂⟩
    split
    · exact hlater _ _ Expr.joined_missing h
    · refine (whole_joins hr d _ (hc.reads h)).bind fun e c₁ ⟨he, h₁⟩ => ?_
      exact hlater e c₁ he (h.trans h₁)
  iterate 2
    · refine ensures_advance ((ensures_endStatement _).bind fun _ c₁ h₁ => ?_)
      exact ensures_pure ⟨each_cons.2 ⟨nofun, each_nil⟩, h.trans h₁⟩
  iterate 2
    · refine ensures_advance ((declHead_yields r.fuel false _).ensures.bind fun head c₁ ⟨_, h₁⟩ => ?_)
      have h₁ := h.trans h₁
      refine (declValue_joins hr d _ c₁ (hc.reads h₁)).mono fun s c₂ ⟨hs, h₂⟩ => ?_
      exact ⟨hs, h₁.trans h₂⟩
  · exact typeDecl_joins hr d hc hk
  · intro s c' hs
    obtain ⟨_, _, _, rfl⟩ := importLib_eq c s c' hs
    exact ⟨each_cons.2 ⟨nofun, each_nil⟩, ((importLib_follows hk).ensures _ c' hs).2.reads⟩
  · refine ensures_advance ((hr.stmt d _ (hc.next h)).bind fun decl c₁ ⟨hs, h₁⟩ => ?_)
    split
    · exact ensures_pure ⟨each_listed.2 ⟨nofun, hs⟩, h.trans h₁⟩
    · exact ensures_fail _ _
  · refine ensures_advance ((funcHead_follows hr.sound d _).ensures.bind fun head c₁ ⟨_, h₁⟩ => ?_)
    have h₁ := h.trans h₁
    refine (funcBody_joins hr d _ true c₁ (hc.reads h₁)).mono fun s c₂ ⟨hs, h₂⟩ => ?_
    exact ⟨hs, h₁.trans h₂⟩
  · exact ensures_fail _ _

theorem simpleStatement_joins :
    (r.simpleStatement d).Joins tokens r.fuel (Stmt.Joined tokens) := by
  intro c hc
  refine (simple_joins hr d c hc).bind fun s c₁ ⟨hs, h₁⟩ => ?_
  refine (ensures_endStatement c₁).bind fun _ c₂ h₂ => ?_
  exact ensures_pure ⟨hs, h₁.trans h₂⟩

theorem statement_joins : (r.statement d).Joins tokens r.fuel (Stmt.Joined tokens) := by
  intro c hc
  have hdecl {c₁ : Cursor} (head : DeclHead) (h₁ : c.Reads true 0 0 c₁) :
      Ensures (r.declValue d head) c₁ fun s c' => s.Joined tokens ∧ c.Reads true 0 0 c' :=
    (declValue_joins hr d head c₁ (hc.reads h₁)).mono fun s c₂ ⟨hs, h₂⟩ => ⟨hs, h₁.trans h₂⟩
  refine ensures_peek ?_
  split
  · next hk => exact keywordStatement_joins hr d hc hk
  · refine (tupleHead_yields r.fuel c).ensures.attempt.bind fun head c₁ h₁ => ?_
    cases head with
    | none =>
      cases h₁
      exact simpleStatement_joins hr d c hc
    | some head => exact hdecl head h₁.2
  · refine (funcHead_follows hr.sound d c).ensures.attempt.bind fun head c₁ h₁ => ?_
    cases head with
    | some head =>
      have h₁ : c.Reads true 0 0 c₁ := h₁.2
      refine (funcBody_joins hr d head false c₁ (hc.reads h₁)).mono fun s c₂ ⟨hs, h₂⟩ => ?_
      exact ⟨hs, h₁.trans h₂⟩
    | none =>
      cases h₁
      refine (declHead_yields r.fuel true c).ensures.attempt.bind fun head c₁ h₁ => ?_
      cases head with
      | none =>
        cases h₁
        exact simpleStatement_joins hr d c hc
      | some head => exact hdecl head h₁.2
  · exact simpleStatement_joins hr d c hc

end Rules

/-! ### The closed grammar -/

/-- **The results of the closed grammar are joined.** -/
theorem joins_at {tokens : List Token} (hflat : Token.Flat tokens) :
    (n : Nat) → Rules.Joins tokens ⟨n, exprAt n, stmtAt n⟩
  | 0 => ⟨hflat, sound_at 0, rfl, fun _ _ _ => ensures_unexpected, fun _ _ _ => ensures_unexpected⟩
  | n + 1 => ⟨hflat, sound_at (n + 1), rfl, Rules.expression_ends (joins_at hflat n),
      Rules.statement_joins (joins_at hflat n)⟩

/-- What is read statement by statement without errors is joined. -/
theorem program_joins {tokens : List Token} {stmt : Parser Stmt} {m : Nat}
    (h : stmt.Joins tokens m (Stmt.Joined tokens)) : (n errors : Nat) → (c : Cursor) →
    c.In tokens m → (program stmt n errors c).2 = [] →
    JoinedStmts tokens (program stmt n errors c).1
  | 0, _, _, _, _ => each_nil
  | n + 1, errors, c, hc, he => by
    unfold program at he ⊢
    split
    · exact each_nil
    iterate 3
      · next hk =>
        rw [hk] at he
        exact program_joins h n errors _ (hc.reads (Cursor.reads_advance_kind rfl)) he
    · split
      · next s c₁ hs =>
        simp only [hs] at he
        obtain ⟨hjoined, hread⟩ := h c hc s c₁ hs
        exact each_append.2 ⟨hjoined, program_joins h n errors c₁ (hc.reads hread) he⟩
      · next hs =>
        simp only [hs] at he
        split at he <;> cases he

end Grammar

namespace Program

/-- A program without errors is joined. -/
theorem joined_parse {limits : Limits} {tokens : List Token} (hflat : Token.Flat tokens)
    (h : (Program.parse limits tokens).errors = []) :
    JoinedStmts tokens (Program.parse limits tokens).program := by
  rw [parse_eq_program] at h ⊢
  split at h
  · cases h
  · next hcount =>
    rw [if_neg hcount]
    have hstart : (Cursor.start tokens).In tokens (tokens.length + 2 - 1) :=
      ⟨rfl, Nat.lt_succ_self _⟩
    exact Grammar.program_joins ((Grammar.joins_at hflat (tokens.length + 2)).stmt _) _ _ _ hstart h

variable {limits : Limits} {source : List Char} {program : Program}

/-- A program that is read is joined. -/
theorem joined_read (h : Source.read limits source = .ok program) :
    JoinedStmts (Token.lex limits.maxTokens source).tokens program := by
  unfold Source.read at h
  dsimp only at h
  split at h
  · cases h
  · split at h
    · next he =>
      cases h
      exact joined_parse (Token.flat_lex limits.maxTokens source) he
    · cases h

/-- **An expression that ends in a block goes on exactly if the next token goes on with it.** In a
program that is read, let a part of a node end in a switch or an `if`. If the node goes on after the
part, it does so with the very token behind the one that closed the block. If the part is a whole
expression, the token behind the block is no bracket, dot or operator that goes on with one. -/
theorem goes_on_after_block (h : Source.read limits source = .ok program) :
    (∀ e head form, .expr e ∈ program.nodes → head ∈ e.heads → head.block? = some form →
      ∃ c : Cursor, c.AfterBlock (Token.lex limits.maxTokens source).tokens form ∧
        c.lastKind = .dedent ∧ head.Extends c.peek e) ∧
    ∀ node part form, node ∈ program.nodes → part ∈ node.wholes → part.block? = some form →
      ∃ c : Cursor, c.AfterBlock (Token.lex limits.maxTokens source).tokens form ∧
        c.peek.Stops Token.joining := by
  have hjoined := joined_read h
  constructor
  · intro e head form he hhead hform
    obtain ⟨c, hc, hext⟩ := (hjoined _ he).1 head hhead form hform
    exact ⟨c, hc, hc.closed.resolve_right hext.kind_ne, hext⟩
  · intro node part form hnode hpart hform
    match node with
    | .expr e => exact (hjoined _ hnode).2 part hpart form hform
    | .stmt s => exact hjoined _ hnode part hpart form hform

/-- An `if` that goes on in the line after its block, and one that does not. -/
theorem goes_on_after_block_offset :
    let source := "x = if a\n    1\n[2]\ny = if a\n    1\n".toList
    let tokens := (Token.lex Limits.standard.maxTokens source).tokens
    ∃ program, Source.read .standard source = .ok program ∧
      (∃ e head form, .expr e ∈ program.nodes ∧ head ∈ e.heads ∧ head.block? = some form ∧
        ∃ c : Cursor, c.AfterBlock tokens form ∧ c.lastKind = .dedent ∧ head.Extends c.peek e) ∧
      ∃ node part form, node ∈ program.nodes ∧ part ∈ node.wholes ∧ part.block? = some form ∧
        ∃ c : Cursor, c.AfterBlock tokens form ∧ c.peek.Stops Token.joining := by
  intro source tokens
  have hrun : (Source.read .standard source).toOption.map (fun program =>
      (program.nodes.any fun node => node.heads.any fun head => head.block?.isSome,
        program.nodes.any fun node => node.wholes.any fun part => part.block?.isSome)) =
      some (true, true) := by
    decide +kernel
  cases hread : Source.read .standard source with
  | error => rw [hread] at hrun; cases hrun
  | ok program =>
    rw [hread] at hrun
    obtain ⟨hheads, hwholes⟩ := Prod.mk.inj (Option.some.inj hrun)
    obtain ⟨node, hnode, hany⟩ := any_eq_true.1 hheads
    obtain ⟨head, hhead, hsome⟩ := any_eq_true.1 hany
    obtain ⟨form, hform⟩ := Option.isSome_iff_exists.1 hsome
    obtain ⟨node', hnode', hany'⟩ := any_eq_true.1 hwholes
    obtain ⟨part, hpart, hsome'⟩ := any_eq_true.1 hany'
    obtain ⟨form', hform'⟩ := Option.isSome_iff_exists.1 hsome'
    obtain ⟨hgoes, hstops⟩ := goes_on_after_block hread
    match node with
    | .expr e =>
      exact ⟨program, rfl,
        ⟨e, head, form, hnode, hhead, hform, hgoes e head form hnode hhead hform⟩,
        node', part, form', hnode', hpart, hform', hstops node' part form' hnode' hpart hform'⟩

end Program

end Pine
