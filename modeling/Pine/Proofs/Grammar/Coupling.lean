import Pine.Proofs.Grammar.Reads
import Pine.Proofs.Tree.Relocate

/-!
# Two runs side by side

Two runs of the grammar are compared step by step. The tokens in front of the two cursors are
*twins*: they differ only in their place. The runs may come to a *seam*, where the left run is at
the end of its input and the right one goes on with a token that starts a statement; then no
bracket and no block is open and a line has just ended.

A coupling says how two cursors are related, relative to the numbers of open brackets and blocks.
Two parsers agree from two cursors if both give results that are related or both fail; at a seam
the left one may fail alone, unless the comparison is strict. Away from seams the errors are the
same up to their place.
-/

namespace Pine

/-! ### Tokens -/

namespace Token

/-- Tokens that differ only in their place. -/
structure Twin (move : Pos → Pos) (t u : Token) : Prop where
  kind : u.kind = t.kind
  lexeme : u.lexeme = t.lexeme
  pos : u.pos = move t.pos

namespace Twin

variable {move : Pos → Pos} {t u : Token}

theorem isOp (h : t.Twin move u) (s : String) : u.isOp s = t.isOp s := by
  rw [Token.isOp, Token.isOp, h.kind, h.lexeme]

theorem isKeyword (h : t.Twin move u) (s : String) : u.isKeyword s = t.isKeyword s := by
  rw [Token.isKeyword, Token.isKeyword, h.kind, h.lexeme]

theorem text (h : t.Twin move u) : u.text = t.text := by
  rw [Token.text, Token.text, h.kind, h.lexeme]

theorem atToken (h : t.Twin move u) (cause : ParseError.Cause) :
    ParseError.atToken u cause = (ParseError.atToken t cause).relocate move := by
  have hline : u.line = (move t.pos).line := congrArg Pos.line h.pos
  have hcolumn : u.column = (move t.pos).column := congrArg Pos.column h.pos
  simp only [ParseError.atToken, ParseError.relocate, hline, hcolumn, h.text, Token.pos]

end Twin

/-- A token that starts a statement of its own wherever a line has ended. -/
def Starts (t : Token) : Prop := t.kind = .identifier ∨ t.kind = .keyword ∧ t.lexeme ≠ "else"

instance (t : Token) : Decidable t.Starts :=
  inferInstanceAs (Decidable (t.kind = .identifier ∨ t.kind = .keyword ∧ t.lexeme ≠ "else"))

end Token

/-! ### Cursors -/

namespace Cursor

variable {c : Cursor}

theorem lastKind_advance (h : c.peek.kind ≠ .eof) : c.advance.lastKind = c.peek.kind := by
  have hp := head?_past_advance h
  unfold lastKind
  cases hc : c.advance.past with
  | nil => simp [hc] at hp
  | cons t ts =>
    rw [hc, List.head?_cons, Option.some.injEq] at hp
    rw [hp]

theorem ahead_advance_lt {kind : Token.Kind} (hk : c.peek.kind = kind) (h : kind ≠ .eof) :
    c.advance.ahead < c.ahead := by
  rw [← hk] at h
  unfold peek advance at *
  split at h
  · next hr => simp [ahead, hr]
  · exact absurd (kind_endAfter _) h

/-- The left run is at the end of its input and the right one goes on. -/
structure AtSeam (a b : Nat) (c c' : Cursor) : Prop where
  level : a = 0
  blocks : b = 0
  left : c.peek.kind = .eof
  right : c'.peek.Starts
  before : c.lastKind.isBreak = true
  lastKind : c'.lastKind = c.lastKind

end Cursor

/-! ### Couplings -/

/-- How the cursors of two runs are related with a number of open brackets and of open blocks. -/
structure Coupling where
  /-- Where the right run has the positions of the left one. -/
  move : Pos → Pos
  /-- Whether the runs can come to a seam. -/
  joined : Prop
  /-- The relation between the cursors. -/
  Rel : Nat → Nat → Cursor → Cursor → Prop
  rest_ne_nil : ∀ {a b c c'}, Rel a b c c' → c.rest ≠ []
  peek : ∀ {a b c c'}, Rel a b c c' → c.peek.Twin move c'.peek ∨ joined ∧ c.AtSeam a b c'
  peekNext : ∀ {a b c c'}, Rel a b c c' → c.peek.kind.isBreak = false →
    c.peekNext.Twin move c'.peekNext
  advance : ∀ {a b c c'}, Rel a b c c' → c.peek.kind ≠ .eof →
    Rel (Layout.nest c.peek.kind a) (c.peek.kind.blocks b) c.advance c'.advance
  eof_in_block : ∀ {a b c c'}, Rel a (b + 1) c c' → c.peek.kind = .eof → ¬joined ∧ Rel a b c c'

namespace Coupling

variable (K : Coupling)

/-- Related cursors before twin tokens. -/
def Here (a b : Nat) (c c' : Cursor) : Prop := K.Rel a b c c' ∧ c.peek.Twin K.move c'.peek

/-- Related cursors that stand before twin tokens if the comparison is strict. -/
def Clear (st : Prop) (a b : Nat) (c c' : Cursor) : Prop :=
  K.Rel a b c c' ∧ (st → c.peek.Twin K.move c'.peek)

/-- Related cursors right after a token of a kind. -/
def At (kind : Token.Kind) (a b : Nat) (c c' : Cursor) : Prop :=
  K.Rel a b c c' ∧ c.lastKind = kind ∧ c'.lastKind = kind

/-- Related cursors where a statement may end. -/
def Done (a b : Nat) (c c' : Cursor) : Prop :=
  K.Rel a b c c' ∧ c'.lastKind = c.lastKind ∧
    (K.joined → c.lastKind ≠ .newline ∧ c.lastKind ≠ .eof)

/-- Related cursors behind a statement. -/
def Ended (a b : Nat) (c c' : Cursor) : Prop := K.Rel a b c c' ∧ c'.lastKind = c.lastKind

/-- Related cursors within a line. -/
def Amid (a b : Nat) (c c' : Cursor) : Prop :=
  K.Rel a b c c' ∧ c'.lastKind = c.lastKind ∧ c.lastKind.isBreak = false

/-- A strict comparison only goes on where no seam can be. -/
def Firm (st : Prop) (a : Nat) : Prop := st → K.joined → 0 < a

variable {K} {st : Prop} {a b : Nat} {c c' : Cursor} {kind : Token.Kind}

theorem twin_of_level (h : K.Rel (a + 1) b c c') : c.peek.Twin K.move c'.peek :=
  (K.peek h).resolve_right fun hs => by cases hs.2.level

theorem twin_of_block (h : K.Rel a (b + 1) c c') : c.peek.Twin K.move c'.peek :=
  (K.peek h).resolve_right fun hs => by cases hs.2.blocks

/-- A run that is not at its end is not at a seam. -/
theorem here_of_ne_eof (h : K.Rel a b c c') (he : c.peek.kind ≠ .eof) : K.Here a b c c' :=
  ⟨h, (K.peek h).resolve_right fun hs => he hs.2.left⟩

theorem Here.clear (h : K.Here a b c c') : K.Clear st a b c c' := ⟨h.1, fun _ => h.2⟩

theorem Firm.clear (hf : K.Firm st a) (h : K.Rel a b c c') : K.Clear st a b c c' := by
  refine ⟨h, fun hst => (K.peek h).resolve_right fun hs => ?_⟩
  have := hf hst hs.1
  rw [hs.2.level] at this
  exact Nat.lt_irrefl 0 this

/-- A strict comparison does not stand at a seam. -/
theorem Clear.not_strict (h : K.Clear st a b c c') (hs : c.AtSeam a b c') : ¬st := by
  intro hst
  have hk := (h.2 hst).kind
  rw [hs.left] at hk
  rcases hs.right with hr | ⟨hr, -⟩
  all_goals
    rw [hr] at hk
    cases hk

theorem firm_level (a : Nat) : K.Firm st (a + 1) := fun _ _ => Nat.succ_pos a

theorem Amid.here (h : K.Amid a b c c') : K.Here a b c c' := by
  refine ⟨h.1, (K.peek h.1).resolve_right fun hs => ?_⟩
  have := hs.2.before
  rw [h.2.2] at this
  cases this

theorem Amid.done (h : K.Amid a b c c') : K.Done a b c c' := by
  obtain ⟨hr, hl, hb⟩ := h
  refine ⟨hr, hl, fun _ => ⟨fun hk => ?_, fun hk => ?_⟩⟩
  all_goals
    rw [hk] at hb
    cases hb

theorem At.amid (h : K.At kind a b c c') (hk : kind.isBreak = false) : K.Amid a b c c' :=
  ⟨h.1, h.2.2.trans h.2.1.symm, h.2.1 ▸ hk⟩

theorem At.here (h : K.At kind a b c c') (hk : kind.isBreak = false) : K.Here a b c c' :=
  (h.amid hk).here

theorem At.ended (h : K.At kind a b c c') : K.Ended a b c c' := ⟨h.1, h.2.2.trans h.2.1.symm⟩

/-- A statement may end after a block. -/
theorem At.done_dedent (h : K.At .dedent a b c c') : K.Done a b c c' :=
  ⟨h.1, h.2.2.trans h.2.1.symm, fun _ => h.2.1 ▸ by simp⟩

theorem not_rest_zero (h : K.Rel a b c c') : ¬c.ahead ≤ 0 := fun hf =>
  K.rest_ne_nil h (List.length_eq_zero_iff.1 (Nat.le_zero.1 hf))

/-- Reading twin tokens. -/
theorem Here.advance (h : K.Here a b c c') (hk : c.peek.kind = kind) (he : kind ≠ .eof) :
    K.At kind (Layout.nest kind a) (kind.blocks b) c.advance c'.advance := by
  subst hk
  refine ⟨K.advance h.1 he, Cursor.lastKind_advance he, ?_⟩
  rw [Cursor.lastKind_advance (h.2.kind ▸ he), h.2.kind]

theorem peek_isOp (h : K.Rel a b c c') (s : String) : c'.peek.isOp s = c.peek.isOp s := by
  rcases K.peek h with ht | ⟨-, hs⟩
  · exact ht.isOp s
  · rcases hs.right with hr | ⟨hr, -⟩
    all_goals simp [Token.isOp, hs.left, hr]

theorem peek_isElse (h : K.Rel a b c c') :
    c'.peek.isKeyword "else" = c.peek.isKeyword "else" := by
  rcases K.peek h with ht | ⟨-, hs⟩
  · exact ht.isKeyword _
  · rcases hs.right with hr | ⟨hr, hl⟩
    · simp [Token.isKeyword, hs.left, hr]
    · simp [Token.isKeyword, hs.left, hr, hl]

/-! ### Agreement -/

variable (K) in
/-- Two parsers agree from two cursors. -/
def Both {α : Type} (st : Prop) (p q : Parser α) (c c' : Cursor)
    (Q : α → α → Cursor → Cursor → Prop) : Prop :=
  match p c, q c' with
  | .ok x d, .ok y d' => Q x y d d'
  | .error e d, .error e' d' => K.joined ∨ e' = e.relocate K.move ∧ ∃ a b, K.Rel a b d d'
  | .error .., .ok .. => K.joined ∧ ¬st
  | .ok .., .error .. => False

variable {α β : Type} {p q : Parser α}

namespace Both

theorem pure {Q : α → α → Cursor → Cursor → Prop} {x y : α} (h : Q x y c c') :
    K.Both st (Pure.pure x) (Pure.pure y) c c' Q := h

theorem mono {Q R : α → α → Cursor → Cursor → Prop} (h : K.Both st p q c c' Q)
    (h' : ∀ x y d d', Q x y d d' → R x y d d') : K.Both st p q c c' R := by
  unfold Both at *
  split at h <;> simp_all

theorem bind {Q : α → α → Cursor → Cursor → Prop} {R : β → β → Cursor → Cursor → Prop}
    {f g : α → Parser β} (h : K.Both st p q c c' Q)
    (h' : ∀ x y d d', Q x y d d' → K.Both st (f x) (g y) d d' R) :
    K.Both st (p >>= f) (q >>= g) c c' R := by
  change match EStateM.bind p f c, EStateM.bind q g c' with
    | .ok x d, .ok y d' => R x y d d'
    | .error e d, .error e' d' => K.joined ∨ e' = e.relocate K.move ∧ ∃ a b, K.Rel a b d d'
    | .error .., .ok .. => K.joined ∧ ¬st
    | .ok .., .error .. => False
  unfold Both at h
  unfold EStateM.bind
  cases hp : p c with
  | ok x d =>
    cases hq : q c' with
    | ok y d' =>
      rw [hp, hq] at h
      exact h' x y d d' h
    | error e' d' =>
      rw [hp, hq] at h
      exact h.elim
  | error e d =>
    cases hq : q c' with
    | error e' d' =>
      rw [hp, hq] at h
      exact h
    | ok y d' =>
      -- the left run failed alone, so the runs are joined and any outcome on the right will do
      rw [hp, hq] at h
      dsimp only
      cases g y d' with
      | ok z d'' => exact h
      | error e'' d'' => exact .inl h.1

/-- What the left parser ensures holds of its result. -/
theorem and_left {Q : α → α → Cursor → Cursor → Prop} {U : α → Cursor → Prop}
    (h : K.Both st p q c c' Q) (hu : p.Ensures c U) :
    K.Both st p q c c' fun x y d d' => Q x y d d' ∧ U x d := by
  unfold Both at *
  cases hp : p c with
  | ok x d =>
    cases hq : q c' with
    | ok y d' =>
      rw [hp, hq] at h
      exact ⟨h, hu x d hp⟩
    | error e' d' =>
      rw [hp, hq] at h
      exact h
  | error e d =>
    cases hq : q c' with
    | error e' d' | ok y d' =>
      rw [hp, hq] at h
      exact h

theorem peek {Q : β → β → Cursor → Cursor → Prop} {f g : Token → Parser β}
    (h : K.Both st (f c.peek) (g c'.peek) c c' Q) :
    K.Both st (Parser.peek >>= f) (Parser.peek >>= g) c c' Q := h

theorem peekNext {Q : β → β → Cursor → Cursor → Prop} {f g : Token → Parser β}
    (h : K.Both st (f c.peekNext) (g c'.peekNext) c c' Q) :
    K.Both st (Parser.peekNext >>= f) (Parser.peekNext >>= g) c c' Q := h

theorem advance {Q : β → β → Cursor → Cursor → Prop} {f g : Token → Parser β}
    (h : K.Both st (f c.peek) (g c'.peek) c.advance c'.advance Q) :
    K.Both st (Parser.advance >>= f) (Parser.advance >>= g) c c' Q := h

theorem atLineEnd {Q : β → β → Cursor → Cursor → Prop} {f g : Bool → Parser β}
    (h : K.Here a b c c') (hf : ∀ e, (e = c.peek.kind.isBreak) → K.Both st (f e) (g e) c c' Q) :
    K.Both st (Parser.atLineEnd >>= f) (Parser.atLineEnd >>= g) c c' Q := by
  have hb (k : Token.Kind) : (decide (k = .newline) || decide (k = .eof) || decide (k = .dedent)) =
      k.isBreak := by
    cases k <;> rfl
  change K.Both st (f (decide (c.peek.kind = .newline) || decide (c.peek.kind = .eof) ||
    decide (c.peek.kind = .dedent))) (g (decide (c'.peek.kind = .newline) ||
    decide (c'.peek.kind = .eof) || decide (c'.peek.kind = .dedent))) c c' Q
  rw [h.2.kind, hb]
  exact hf _ rfl

theorem ite {Q : α → α → Cursor → Cursor → Prop} {p' q' : Parser α} {P P' : Prop} [Decidable P]
    [Decidable P'] (hi : P' ↔ P) (h : P → K.Both st p q c c' Q)
    (h' : ¬P → K.Both st p' q' c c' Q) :
    K.Both st (if P then p else p') (if P' then q else q') c c' Q := by
  by_cases hP : P
  · rw [if_pos hP, if_pos (hi.2 hP)]
    exact h hP
  · rw [if_neg hP, if_neg (mt hi.1 hP)]
    exact h' hP

/-- Both fail at twin tokens. -/
theorem fail {Q : α → α → Cursor → Cursor → Prop} {t u : Token} (h : K.Rel a b c c')
    (ht : t.Twin K.move u) (cause : ParseError.Cause) :
    K.Both st (Parser.fail t cause) (Parser.fail u cause) c c' Q :=
  .inr ⟨ht.atToken cause, a, b, h⟩

/-- The left parser fails at a seam. -/
theorem of_left_error {Q : α → α → Cursor → Cursor → Prop} (hj : K.joined) (hst : ¬st)
    (h : ∃ e d, p c = .error e d) : K.Both st p q c c' Q := by
  obtain ⟨e, d, hp⟩ := h
  unfold Both
  rw [hp]
  cases q c' with
  | ok y d' => exact ⟨hj, hst⟩
  | error e' d' => exact .inl hj

/-- Both fail at their next tokens. -/
theorem failHere {Q : α → α → Cursor → Cursor → Prop} (h : K.Rel a b c c')
    {cause : Token → ParseError.Cause}
    (hc : ∀ t u, Token.Twin K.move t u → cause u = cause t) :
    K.Both st (Parser.peek >>= fun t => Parser.fail t (cause t))
      (Parser.peek >>= fun t => Parser.fail t (cause t)) c c' Q := by
  rcases K.peek h with ht | ⟨hj, -⟩
  · refine Both.peek ?_
    rw [hc _ _ ht]
    exact Both.fail h ht _
  · exact .inl hj

theorem attempt {Q : α → α → Cursor → Cursor → Prop} (h : K.Both True p q c c' Q) :
    K.Both st (Parser.attempt p) (Parser.attempt q) c c' fun x y d d' =>
      (x = none ∧ y = none ∧ d = c ∧ d' = c') ∨
        ∃ u v, x = some u ∧ y = some v ∧ Q u v d d' := by
  unfold Both at *
  unfold Parser.attempt
  cases hp : p c with
  | ok x d =>
    cases hq : q c' with
    | ok y d' =>
      rw [hp, hq] at h
      exact .inr ⟨x, y, rfl, rfl, h⟩
    | error e' d' =>
      rw [hp, hq] at h
      exact h.elim
  | error e d =>
    cases hq : q c' with
    | error e' d' => exact .inl ⟨rfl, rfl, rfl, rfl⟩
    | ok y d' =>
      rw [hp, hq] at h
      exact absurd trivial h.2

/-! ### Demands on the next token -/

theorem require {P : Token → Prop} [DecidablePred P] {cause : Token → ParseError.Cause}
    (h : K.Clear st a b c c') (hP : ∀ t u, Token.Twin K.move t u → (P u ↔ P t))
    (he : ∀ t, P t → t.kind ≠ .eof) (hc : ∀ t u, Token.Twin K.move t u → cause u = cause t) :
    K.Both st (Parser.peek >>= fun t => if P t then Parser.advance else Parser.fail t (cause t))
      (Parser.peek >>= fun t => if P t then Parser.advance else Parser.fail t (cause t)) c c'
      fun t u d d' => (t.Twin K.move u ∧ P t) ∧
        K.At t.kind (Layout.nest t.kind a) (t.kind.blocks b) d d' ∧
        d.ahead < c.ahead := by
  rcases K.peek h.1 with ht | ⟨hj, hs⟩
  · refine Both.peek (Both.ite (hP _ _ ht) (fun hp => ?_) fun _ => ?_)
    · exact ⟨⟨ht, hp⟩, Here.advance ⟨h.1, ht⟩ rfl (he _ hp), Cursor.ahead_advance_lt rfl (he _ hp)⟩
    · rw [hc _ _ ht]
      exact fail h.1 ht _
  · refine of_left_error hj (h.not_strict hs) ⟨.atToken c.peek (cause c.peek), c, ?_⟩
    have hP' : ¬P c.peek := fun hp => he _ hp hs.left
    change (if P c.peek then Parser.advance else Parser.fail c.peek (cause c.peek)) c = _
    rw [if_neg hP']
    rfl

theorem expect (h : K.Clear st a b c c') (kind : Token.Kind) (he : kind ≠ .eof) :
    K.Both st (Parser.expect kind) (Parser.expect kind) c c' fun t u d d' =>
      t.Twin K.move u ∧ K.At kind (Layout.nest kind a) (kind.blocks b) d d' ∧
        d.ahead < c.ahead := by
  refine (require (P := fun t => t.kind = kind) h (fun t u ht => by rw [ht.kind])
    (fun t hk => hk ▸ he) fun t u ht => by rw [ht.text]).mono ?_
  rintro t u d d' ⟨⟨ht, rfl⟩, hat⟩
  exact ⟨ht, hat⟩

theorem expectOp (h : K.Clear st a b c c') (s : String) :
    K.Both st (Parser.expectOp s) (Parser.expectOp s) c c' fun t u d d' =>
      t.Twin K.move u ∧ K.At .operator a b d d' ∧ d.ahead < c.ahead := by
  refine (require h (fun t u ht => by rw [ht.isOp]) (fun t hk => by simp [(Token.isOp_iff.1 hk).1])
    fun t u ht => by rw [ht.text]).mono ?_
  rintro t u d d' ⟨⟨ht, hop⟩, hat⟩
  rw [(Token.isOp_iff.1 hop).1] at hat
  exact ⟨ht, hat⟩

theorem expectKeyword (h : K.Clear st a b c c') (s : String) :
    K.Both st (Parser.expectKeyword s) (Parser.expectKeyword s) c c' fun t u d d' =>
      t.Twin K.move u ∧ K.At .keyword a b d d' ∧ d.ahead < c.ahead := by
  refine (require h (fun t u ht => by rw [ht.isKeyword])
    (fun t hk => by simp [(Token.isKeyword_iff.1 hk).1]) fun t u ht => by rw [ht.text]).mono ?_
  rintro t u d d' ⟨⟨ht, hop⟩, hat⟩
  rw [(Token.isKeyword_iff.1 hop).1] at hat
  exact ⟨ht, hat⟩

theorem enter (h : K.Rel a b c c') (d : Nesting) :
    K.Both st d.enter d.enter c c' fun m n e e' => n = m ∧ e = c ∧ e' = c' := by
  unfold Nesting.enter
  split
  · exact failHere h fun _ _ _ => rfl
  · exact ⟨rfl, rfl, rfl⟩

/-- The end of a statement is the same in both runs, for at a seam only a block has just ended. -/
theorem endStatement (h : K.Done a b c c') :
    K.Both st Parser.endStatement Parser.endStatement c c' fun _ _ d d' =>
      K.Ended a b d d' ∧ d.ahead ≤ c.ahead := by
  obtain ⟨hr, hl, hn⟩ := h
  unfold Both Parser.endStatement
  rw [hl]
  by_cases hd : c.lastKind = .dedent
  · rw [if_pos hd, if_pos hd]
    exact ⟨⟨hr, hl⟩, Nat.le_refl _⟩
  · rw [if_neg hd, if_neg hd]
    rcases K.peek hr with ht | ⟨hj, hs⟩
    · rw [ht.kind]
      cases hk : c.peek.kind with
      | newline =>
        have hat := Here.advance ⟨hr, ht⟩ hk (by simp)
        exact ⟨hat.ended, c.length_rest_advance_le⟩
      | eof | dedent => exact ⟨⟨hr, hl⟩, Nat.le_refl _⟩
      | _ => exact .inr ⟨ht.text ▸ ht.atToken _, a, b, hr⟩
    · exfalso
      have hb := hs.before
      have := hn hj
      cases hk : c.lastKind <;> simp_all [Token.Kind.isBreak]

end Both

/-! ### Agreement on results that differ in their place -/

variable (K) in
/-- Two parsers agree, the right result is the left one seen through `v`, the cursors behind the
results are related, and fewer than `n` tokens are left behind the left one. -/
def Gives (st : Prop) (v : α → α) (R : Cursor → Cursor → Prop) (n : Nat) (p q : Parser α)
    (c c' : Cursor) : Prop :=
  K.Both st p q c c' fun x y d d' => y = v x ∧ R d d' ∧ d.ahead < n

variable (K) in
/-- A parser agrees with itself. -/
abbrev Agrees (st : Prop) (v : α → α) (R : Cursor → Cursor → Prop) (n : Nat) (p : Parser α)
    (c c' : Cursor) : Prop := K.Gives st v R n p p c c'

namespace Gives

variable {v : α → α} {R : Cursor → Cursor → Prop} {n m : Nat}

theorem andThen {Q : β → β → Cursor → Cursor → Prop} {f g : α → Parser β}
    (h : K.Gives st v R n p q c c')
    (hf : ∀ x d d', R d d' → d.ahead < n → K.Both st (f x) (g (v x)) d d' Q) :
    K.Both st (p >>= f) (q >>= g) c c' Q := by
  refine Both.bind h ?_
  rintro x _ d d' ⟨rfl, hd, hl⟩
  exact hf x d d' hd hl

theorem within (h : K.Gives st v R n p q c c') (hn : n ≤ m) : K.Gives st v R m p q c c' :=
  Both.mono h fun _ _ _ _ hx => ⟨hx.1, hx.2.1, Nat.lt_of_lt_of_le hx.2.2 hn⟩

/-- A statement whose last part has been read ends. -/
theorem ended {x y : α} (hx : y = v x) (h : K.Done a b c c') (hl : c.ahead < n) :
    K.Gives st v (K.Ended a b) n (Parser.endStatement >>= fun _ => Pure.pure x)
      (Parser.endStatement >>= fun _ => Pure.pure y) c c' :=
  (Both.endStatement h).bind fun _ _ _ _ hd =>
    Both.pure ⟨hx, hd.1, Nat.lt_of_le_of_lt hd.2 hl⟩

end Gives

end Coupling

end Pine
