import Pine.Proofs.Token.Spelled
import Pine.Proofs.Tree.Chains
import Pine.Proofs.Tree.Complete
import Pine.Proofs.Tree.Named

/-!
# What a stretch of tokens holds

The tokens that a rule reads hold all that its result needs. They have matching brackets. If they
are well-spelled, the nodes of the result are well-named. And they anchor the chains of suffixes:
every chain starts with an expression that has a token for text of its own, and the suffixes of the
chain stand where that token stands.

The last is a count of tokens: the positions at which a rule leaves something to stand on, together
with the tokens that it leaves unread, are all among the tokens that it found.
-/

namespace Pine

open List

/-- The position of an expression, unless the first link of its chain stands there already. -/
def Expr.own (e : Expr) : List Pos := if e.isSuffix then [] else [e.pos]

/-- The nodes of an expression. -/
abbrev Expr.nodes (e : Expr) : List Node := e.walk fun _ => .parts

/-- The nodes of a statement. -/
abbrev Stmt.nodes (s : Stmt) : List Node := s.walk fun _ => .parts

/-- The local names that imports have: identifiers, and those that are taken from the path. -/
def Grammar.IsLocalName (path localName : String) : Prop :=
  Script.isIdentifier localName = true ∨ localName = defaultLocalName path

namespace Cursor

variable {c c₁ c₂ c₃ : Cursor} {own own' : List Pos} {ms ns : List Node}
  {moved moved' : Bool} {i j : Nat}

/-! ### Tokens that are left -/

/-- The tokens that are left are well-spelled. -/
def Spelled (c : Cursor) : Prop := ∀ t ∈ c.rest, t.Spelled

theorem Spelled.peek (h : c.Spelled) : c.peek.Spelled := by
  unfold Cursor.peek
  split
  · next hr => exact h _ (by simp [hr])
  · exact fun hk => by simp at hk

theorem Precedes.spelled (h : c.Precedes c₁) (hc : c.Spelled) : c₁.Spelled := by
  obtain ⟨used, hr, -⟩ := h
  exact fun t ht => hc t (by rw [hr]; exact mem_append_right _ ht)

theorem Reads.spelled (h : c.Reads moved i j c₁) (hc : c.Spelled) : c₁.Spelled :=
  h.precedes.spelled hc

/-- The number of tokens left that stand for text at a position. -/
def left (c : Cursor) (x : Pos) : Nat := c.rest.countP fun t => t.pos == x && t.kind.isText

theorem Reads.left_le (h : c.Reads moved i j c₁) (x : Pos) : c₁.left x ≤ c.left x := by
  obtain ⟨used, hr, -⟩ := h
  rw [left, left, hr, countP_append]
  exact Nat.le_add_left _ _

/-! ### Stretches -/

/-- The tokens from one cursor to another hold some nodes, and tokens of their own for some further
positions. -/
structure Spans (moved : Bool) (c c' : Cursor) (own : List Pos) (ns : List Node) : Prop where
  /-- The tokens have matching brackets. -/
  reads : c.Reads moved 0 0 c'
  /-- The nodes are well-named if the tokens are well-spelled. -/
  named : c.Spelled → Each (Node.Named Grammar.IsLocalName) ns
  /-- The links of the nodes stand where they should. -/
  aligned : Aligned (links ns)
  /-- There is a token of its own for each position and for each anchor. -/
  count_le : ∀ x, (own ++ anchors (links ns)).count x + c'.left x ≤ c.left x

theorem Reads.spans (h : c.Reads moved 0 0 c₁) : c.Spans moved c₁ [] [] :=
  ⟨h, fun _ => each_nil, aligned_nil, fun x => by simpa using h.left_le x⟩

namespace Spans

theorem weaken (h : c.Spans moved c₁ own ns) : c.Spans false c₁ own ns :=
  { h with reads := h.reads.weaken }

theorem congr (h : c.Spans moved c₁ own ns) (hn : ms = ns) : c.Spans moved c₁ own ms := hn ▸ h

theorem after (h : c.Reads moved 0 0 c₁) (h' : c₁.Spans moved' c₂ own ns) :
    c.Spans (moved || moved') c₂ own ns :=
  ⟨h.trans h'.reads, fun hs => h'.named (h.spelled hs), h'.aligned,
    fun x => (h'.count_le x).trans (h.left_le x)⟩

theorem before (h : c.Spans moved c₁ own ns) (h' : c₁.Reads moved' 0 0 c₂) :
    c.Spans (moved || moved') c₂ own ns :=
  ⟨h.reads.trans h', h.named, h.aligned,
    fun x => (Nat.add_le_add_left (h'.left_le x) _).trans (h.count_le x)⟩

/-- A stretch between an opening and a closing bracket. -/
theorem within (h : c.Reads true 0 1 c₁) (h' : c₁.Spans moved c₂ own ns)
    (h'' : c₂.Reads moved' 1 0 c₃) : c.Spans true c₃ own ns :=
  ⟨h.within h'.reads h'', fun hs => h'.named (h.spelled hs), h'.aligned,
    fun x => (Nat.add_le_add_left (h''.left_le x) _).trans
      ((h'.count_le x).trans (h.left_le x))⟩

theorem drop (h : c.Spans moved c₁ own ns) : c.Spans moved c₁ [] ns := by
  refine { h with count_le := fun x => ?_ }
  have hcount := h.count_le x
  rw [count_append] at hcount
  rw [nil_append]
  omega

theorem trans (h : c.Spans moved c₁ own ms) (h' : c₁.Spans moved' c₂ own' ns) :
    c.Spans (moved || moved') c₂ (own ++ own') (ms ++ ns) := by
  refine ⟨h.reads.trans h'.reads, fun hs => ?_, ?_, fun x => ?_⟩
  · exact each_append.2 ⟨h.named hs, h'.named (h.reads.spelled hs)⟩
  · rw [links_append, aligned_append]
    exact ⟨h.aligned, h'.aligned⟩
  · have hcount := h.count_le x
    have hcount' := h'.count_le x
    rw [count_append] at hcount hcount'
    rw [links_append, anchors_append, count_append, count_append, count_append]
    omega

/-- A token for text anchors its position, in front of what is read up to some place. -/
theorem token (ht : c.peek.kind.isText = true) (hr : c.Reads true 0 0 c₂)
    (h : c.advance.Spans moved c₁ [] ns) (h' : c₁.Reads moved' i j c₂) :
    c.Spans true c₂ [c.peek.pos] ns := by
  refine ⟨hr, fun hs => h.named (c.precedes_advance.spelled hs), h.aligned, fun x => ?_⟩
  have hrest : c.rest = c.peek :: c.advance.rest :=
    rest_eq_cons fun heof => by rw [heof] at ht; cases ht
  have hleft : c.left x = c.advance.left x + [c.peek.pos].count x := by
    rw [left, hrest, countP_cons, left, count_singleton]
    simp [ht]
  have hcount := h.count_le x
  have hless := h'.left_le x
  rw [nil_append] at hcount
  rw [count_append, hleft]
  omega

/-- An operator anchors its position, and so does a keyword. -/
theorem word (hr : c.Reads true 0 0 c.advance) (ht : c.peek.kind.isText = true)
    (h : c.advance.Spans moved c₁ [] ns) : c.Spans true c₁ [c.peek.pos] ns :=
  .token ht (hr.trans h.reads) h (.refl c₁)

/-- A node that is no suffix in front of its parts. -/
theorem node {n : Node} (h : c.Spans moved c₁ own ns)
    (hn : c.Spelled → n.Named Grammar.IsLocalName) (hl : n.link? = none) :
    c.Spans moved c₁ own (n :: ns) := by
  have hlinks : links (n :: ns) = links ns := by simp [links, hl]
  exact ⟨h.reads, fun hs => each_cons.2 ⟨hn hs, h.named hs⟩, hlinks ▸ h.aligned, hlinks ▸ h.count_le⟩

/-- A suffix takes over the position that what it follows has of its own. -/
theorem suffix {e f : Expr} (h : c.Spans moved c₁ e.own e.nodes) (h' : c₁.Spans moved' c₂ [] ns)
    (hf : f.object? = some e) (hp : f.pos = e.pos)
    (hn : c.Spelled → Node.Named Grammar.IsLocalName (.expr f)) :
    c.Spans (moved || moved') c₂ f.own (.expr f :: (e.nodes ++ ns)) := by
  have hlinks : links (.expr f :: (e.nodes ++ ns)) =
      ⟨f.pos, e.pos, !e.isSuffix⟩ :: (links e.nodes ++ links ns) := by
    simp [links, Node.link?, hf]
  have hown : anchors (⟨f.pos, e.pos, !e.isSuffix⟩ :: (links e.nodes ++ links ns)) =
      e.own ++ anchors (links e.nodes) ++ anchors (links ns) := by
    rw [append_assoc, ← anchors_append, Expr.own, hp]
    cases e.isSuffix <;> rfl
  refine ⟨h.reads.trans h'.reads, fun hs => ?_, ?_, fun x => ?_⟩
  · exact each_cons.2 ⟨hn hs, each_append.2 ⟨h.named hs, h'.named (h.reads.spelled hs)⟩⟩
  · rw [hlinks, aligned_cons, aligned_append]
    exact ⟨hp.symm, h.aligned, h'.aligned⟩
  · have hcount := h.count_le x
    have hcount' := h'.count_le x
    rw [nil_append] at hcount'
    rw [hlinks, hown, Expr.own, Expr.isSuffix, hf, count_append, count_append]
    simp only [Option.isSome_some, if_true, count_nil]
    omega

end Spans

end Cursor

/-! ### Parsers -/

namespace Parser

variable {α : Type} (p : Parser α)

/-- Every result has a property if the tokens are well-spelled, and the tokens read have matching
brackets. -/
def Yields (moved : Bool) (N : α → Prop) : Prop :=
  ∀ c, p.Follows c fun a c' => (c.Spelled → N a) ∧ c.Reads moved 0 0 c'

/-- The tokens read hold the nodes of every result, which has a property relative to the cursor in
front of it. -/
def Grows (moved : Bool) (K : Cursor → α → Prop) (ns : α → List Node) : Prop :=
  ∀ c, p.Follows c fun a c' => K c a ∧ c.Spans moved c' [] (ns a)

/-- The tokens read hold the nodes of a complete expression and its position. -/
def GrowsExpr (p : Parser Expr) : Prop :=
  ∀ c, p.Follows c fun e c' => e.Complete anyKey ∧ c.Spans true c' e.own e.nodes

variable {p}

theorem GrowsExpr.drop {p : Parser Expr} (h : p.GrowsExpr) :
    p.Grows true (fun _ => Expr.Complete anyKey) Expr.nodes :=
  fun c => (h c).mono fun _ _ h => ⟨h.1, h.2.drop⟩

/-- The lexeme of an identifier has the shape of a name. -/
theorem follows_identifier (c : Cursor) : (expect .identifier).Follows c fun t c' =>
    (c.Spelled → Script.isNameShaped t.lexeme = true) ∧ c.Reads true 0 0 c' :=
  (follows_expect .identifier c).mono fun _ _ h => ⟨fun hs => h.1.2 ▸ hs.peek (.inl h.1.1), h.2⟩

end Parser

end Pine
