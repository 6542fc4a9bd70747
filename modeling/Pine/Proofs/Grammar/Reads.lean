import Pine.Proofs.Grammar.Nesting
import Pine.Token.Layout

/-!
# What a parser reads

A parser that succeeds has read a stretch of the tokens in front of it. A stretch *leads from
bracket level `i` to bracket level `j`* if it does so at every depth below it: it closes the `i`
brackets that are open before it and opens `j` brackets of its own. Stretches that lead from level
zero to level zero have matching brackets.

What a parser ensures when it succeeds is proved along its own steps: for a sequence of two parsers
it is what the second ensures from wherever the first can stop. A parser that fails has also moved
over tokens in front of it, or not moved.
-/

namespace Pine

open List

/-! ### Kinds of tokens and levels -/

namespace Token

/-- The kinds that can stand before the start of a line. -/
def Kind.isBreak : Kind → Bool
  | .newline | .dedent | .eof => true
  | _ => false

/-- The number of brackets that a token of a kind closes. -/
def Kind.closes : Kind → Nat
  | .rparen | .rbracket => 1
  | _ => 0

/-- The number of brackets that a token of a kind opens. -/
def Kind.opens : Kind → Nat
  | .lparen | .lbracket => 1
  | _ => 0

theorem nest_closes (k : Kind) (m : Nat) : Layout.nest k (m + k.closes) = m + k.opens := by
  cases k <;> rfl

/-- The bracket level after some tokens. -/
def levelAfter (level : Nat) (ts : List Token) : Nat :=
  ts.foldl (fun n t => Layout.nest t.kind n) level

@[simp] theorem levelAfter_append (level : Nat) (ts us : List Token) :
    levelAfter level (ts ++ us) = levelAfter (levelAfter level ts) us := foldl_append

/-- How a token of a kind changes the number of open blocks. -/
def Kind.blocks (kind : Kind) (level : Nat) : Nat :=
  match kind with
  | .indent => level + 1
  | .dedent => level - 1
  | _ => level

/-- The number of open blocks after some tokens. -/
def blocksAfter (level : Nat) (ts : List Token) : Nat :=
  ts.foldl (fun n t => t.kind.blocks n) level

@[simp] theorem blocksAfter_append (level : Nat) (ts us : List Token) :
    blocksAfter level (ts ++ us) = blocksAfter (blocksAfter level ts) us := foldl_append

theorem isOp_iff {t : Token} {s : String} :
    t.isOp s = true ↔ t.kind = .operator ∧ t.lexeme = s := by
  simp [isOp]

theorem isKeyword_iff {t : Token} {s : String} :
    t.isKeyword s = true ↔ t.kind = .keyword ∧ t.lexeme = s := by
  simp [isKeyword]

end Token

/-- The position of an error. -/
def ParseError.pos (e : ParseError) : Pos := ⟨e.line, e.column⟩

namespace Cursor

/-- The number of tokens that are left. -/
abbrev ahead (c : Cursor) : Nat := c.rest.length

@[simp] theorem kind_endAfter (last : Option Token) : (endAfter last).kind = .eof := by
  cases last <;> rfl

/-- Past a token other than an end of input stands the token after it. -/
theorem peek_advance {c : Cursor} (h : c.peek.kind ≠ .eof) : c.advance.peek = c.peekNext := by
  obtain ⟨past, rest⟩ := c
  match rest with
  | [] => simp [peek] at h
  | [t] => rfl
  | t :: u :: rest => rfl

/-- A token other than an end of input is the next of the tokens left. -/
theorem rest_eq_cons {c : Cursor} (h : c.peek.kind ≠ .eof) :
    c.rest = c.peek :: c.advance.rest := by
  unfold peek advance at *
  split
  · next hr => exact hr
  · next hr => simp [hr] at h

/-- A token other than an end of input is the last one read after it. -/
theorem head?_past_advance {c : Cursor} (h : c.peek.kind ≠ .eof) :
    c.advance.past.head? = some c.peek := by
  unfold peek advance at *
  split
  · rfl
  · next hr => simp [hr] at h

/-- The cursor moved over tokens that lead from bracket level `i` to bracket level `j`; if `moved`
is set, over at least one. -/
def Reads (moved : Bool) (i j : Nat) (c c' : Cursor) : Prop :=
  ∃ used, c.rest = used ++ c'.rest ∧ c'.past = used.reverse ++ c.past ∧
    (∀ m, Token.levelAfter (m + i) used = m + j) ∧ (moved = true → used ≠ [])

variable {c c' c'' : Cursor} {i j k : Nat} {moved moved' : Bool}

theorem Reads.refl (c : Cursor) : c.Reads false 0 0 c := ⟨[], rfl, rfl, fun _ => rfl, by simp⟩

theorem Reads.trans (h : c.Reads moved i j c') (h' : c'.Reads moved' j k c'') :
    c.Reads (moved || moved') i k c'' := by
  obtain ⟨used, hr, hp, hl, hm⟩ := h
  obtain ⟨used', hr', hp', hl', hm'⟩ := h'
  refine ⟨used ++ used', ?_, ?_, fun m => ?_, ?_⟩
  · rw [hr, hr', append_assoc]
  · rw [hp', hp, reverse_append, append_assoc]
  · rw [Token.levelAfter_append, hl, hl']
  · rw [Bool.or_eq_true, Ne, append_eq_nil_iff]
    rintro (h | h) ⟨hn, hn'⟩
    · exact hm h hn
    · exact hm' h hn'

theorem Reads.weaken (h : c.Reads moved i j c') : c.Reads false i j c' := by
  obtain ⟨used, hr, hp, hl, -⟩ := h
  exact ⟨used, hr, hp, hl, by simp⟩

/-- A stretch does the same with more brackets open around it. -/
theorem Reads.lift (h : c.Reads moved i j c') (n : Nat) : c.Reads moved (n + i) (n + j) c' := by
  obtain ⟨used, hr, hp, hl, hm⟩ := h
  refine ⟨used, hr, hp, fun m => ?_, hm⟩
  rw [← Nat.add_assoc, ← Nat.add_assoc, hl]

/-- A stretch with matching brackets between an opening and a closing bracket. -/
theorem Reads.within (h : c.Reads true 0 1 c') {c₁ c₂ : Cursor} (h' : c'.Reads moved 0 0 c₁)
    (h'' : c₁.Reads moved' 1 0 c₂) : c.Reads true 0 0 c₂ :=
  h.trans ((h'.lift 1).trans h'')

theorem Reads.length_lt (h : c.Reads true i j c') : c'.rest.length < c.rest.length := by
  obtain ⟨used, hr, -, -, hm⟩ := h
  have := length_pos_iff.2 (hm rfl)
  rw [hr, length_append]
  omega

theorem reads_advance_kind {kind : Token.Kind} (h : c.peek.kind = kind) :
    c.Reads (kind != .eof) kind.closes kind.opens c.advance := by
  subst h
  unfold peek advance
  split
  · next t rest h =>
    exact ⟨[t], by simpa using h, rfl, fun m => Token.nest_closes t.kind m, by simp⟩
  · rw [kind_endAfter]
    exact Reads.refl c

theorem reads_advance_word (h : c.peek.kind = .identifier ∨ c.peek.kind = .keyword) :
    c.Reads true 0 0 c.advance := by
  rcases h with h | h
  all_goals exact reads_advance_kind h

/-- The cursor moved over some tokens. -/
def Precedes (c c' : Cursor) : Prop :=
  ∃ used, c.rest = used ++ c'.rest ∧ c'.past = used.reverse ++ c.past

theorem Precedes.refl (c : Cursor) : c.Precedes c := ⟨[], rfl, rfl⟩

theorem Precedes.trans (h : c.Precedes c') (h' : c'.Precedes c'') : c.Precedes c'' := by
  obtain ⟨used, hr, hp⟩ := h
  obtain ⟨used', hr', hp'⟩ := h'
  exact ⟨used ++ used', by rw [hr, hr', append_assoc],
    by rw [hp', hp, reverse_append, append_assoc]⟩

theorem Reads.precedes (h : c.Reads moved i j c') : c.Precedes c' := by
  obtain ⟨used, hr, hp, -⟩ := h
  exact ⟨used, hr, hp⟩

theorem precedes_advance (c : Cursor) : c.Precedes c.advance := (reads_advance_kind rfl).precedes

/-- The cursor moved over some tokens up to an error, which stands at one of them, at the next token
or at a token of `E`. -/
def FailsOr (E : Token → Prop) (c : Cursor) (e : ParseError) (c' : Cursor) : Prop :=
  ∃ used, (c.rest = used ++ c'.rest ∧ c'.past = used.reverse ++ c.past) ∧
    ∃ t, e.pos = t.pos ∧ (t ∈ used ∨ t = c'.peek ∨ E t)

/-- The cursor moved over some tokens up to an error, which stands at one of them or at the next
token. -/
abbrev Fails (c : Cursor) (e : ParseError) (c' : Cursor) : Prop := c.FailsOr (fun _ => False) e c'

variable {E : Token → Prop} {e : ParseError}

theorem failsOr_refl (c : Cursor) {t : Token} (ht : t = c.peek ∨ E t) (cause : ParseError.Cause) :
    c.FailsOr E (.atToken t cause) c := ⟨[], ⟨rfl, rfl⟩, t, rfl, .inr ht⟩

theorem FailsOr.precedes (h : c.FailsOr E e c') : c.Precedes c' := by
  obtain ⟨used, hused, -⟩ := h
  exact ⟨used, hused⟩

theorem FailsOr.weaken (h : c.Fails e c') : c.FailsOr E e c' := by
  obtain ⟨used, hused, t, ht, hmem⟩ := h
  exact ⟨used, hused, t, ht, hmem.imp_right (.imp_right False.elim)⟩

theorem Precedes.failsOr (h : c.Precedes c') (h' : c'.FailsOr E e c'') : c.FailsOr E e c'' := by
  obtain ⟨used, hr, hp⟩ := h
  obtain ⟨used', ⟨hr', hp'⟩, t, ht, hmem⟩ := h'
  refine ⟨used ++ used', ⟨by rw [hr, hr', append_assoc],
    by rw [hp', hp, reverse_append, append_assoc]⟩, t, ht, ?_⟩
  exact hmem.imp_left (mem_append_right _)

/-- The token at which a parser starts is the next token or one of those that it moves over. -/
theorem FailsOr.of_peek (h : c.FailsOr (· = c.peek) e c') : c.Fails e c' := by
  obtain ⟨used, ⟨hr, hp⟩, t, ht, hmem⟩ := h
  refine ⟨used, ⟨hr, hp⟩, t, ht, ?_⟩
  rcases hmem with hmem | hmem | rfl
  · exact .inl hmem
  · exact .inr (.inl hmem)
  · cases used with
    | nil => exact .inr (.inl (by rw [peek, peek, hr, hp]; rfl))
    | cons u us => exact .inl (by rw [peek, hr]; exact mem_cons_self ..)

end Cursor

/-! ### What a parser ensures -/

namespace Parser

variable {α β : Type} {c : Cursor} {p : Parser α} {R S : α → Cursor → Prop} {Q : β → Cursor → Prop}

/-- A parser moves over tokens, whether it succeeds or not; what holds if it succeeds, and where the
error stands if it does not. -/
def FollowsOr (E : Token → Prop) (p : Parser α) (c : Cursor) (R : α → Cursor → Prop) : Prop :=
  match p c with
  | .ok a c' => c.Precedes c' ∧ R a c'
  | .error e c' => c.FailsOr E e c'

/-- A parser moves over tokens, whether it succeeds or not, and what holds if it succeeds. -/
abbrev Follows (p : Parser α) (c : Cursor) (R : α → Cursor → Prop) : Prop :=
  FollowsOr (fun _ => False) p c R

variable {E : Token → Prop}

theorem follows_pure {a : α} (h : R a c) : FollowsOr E (pure a) c R := ⟨.refl c, h⟩

theorem follows_fail (cause : ParseError.Cause) : FollowsOr E (fail c.peek cause) c R :=
  c.failsOr_refl (.inl rfl) cause

theorem follows_failAt (t : Token) (cause : ParseError.Cause) :
    FollowsOr (· = t) (fail t cause) c R := c.failsOr_refl (E := (· = t)) (.inr rfl) cause

theorem follows_unexpected : FollowsOr E unexpected c R := follows_fail (R := R) _

theorem Follows.mono (h : Follows p c R) (h' : ∀ a c', R a c' → S a c') : FollowsOr E p c S := by
  unfold Follows FollowsOr at *
  split at h
  · next a c' heq => exact ⟨h.1, h' a c' h.2⟩
  · exact h.weaken

theorem Follows.bind {f : α → Parser β} (h : Follows p c R)
    (h' : ∀ a c', R a c' → FollowsOr E (f a) c' Q) : FollowsOr E (p >>= f) c Q := by
  unfold Follows FollowsOr at h
  change match EStateM.bind p f c with
    | .ok b c' => c.Precedes c' ∧ Q b c'
    | .error e c' => c.FailsOr E e c'
  rw [EStateM.bind]
  split at h
  · next a c' heq =>
    rw [heq]
    have hf := h' a c' h.2
    unfold FollowsOr at hf
    dsimp only
    split at hf
    · exact ⟨h.1.trans hf.1, hf.2⟩
    · exact h.1.failsOr hf
  · next heq =>
    rw [heq]
    exact h.weaken

/-- An error at the token where a parser starts is an error at one of the tokens. -/
theorem follows_of_start (h : FollowsOr (· = c.peek) p c R) : Follows p c R := by
  unfold Follows FollowsOr at *
  split at h
  · exact h
  · exact h.of_peek

theorem follows_peek {f : Token → Parser β} (h : FollowsOr E (f c.peek) c Q) :
    FollowsOr E (peek >>= f) c Q := h

theorem follows_peekNext {f : Token → Parser β} (h : FollowsOr E (f c.peekNext) c Q) :
    FollowsOr E (peekNext >>= f) c Q := h

theorem follows_advance {f : Token → Parser β} (h : FollowsOr E (f c.peek) c.advance Q) :
    FollowsOr E (advance >>= f) c Q :=
  Follows.bind (R := fun t c' => t = c.peek ∧ c' = c.advance) ⟨c.precedes_advance, rfl, rfl⟩
    fun _ _ h' => h'.1 ▸ h'.2 ▸ h

theorem follows_atLineEnd {f : Bool → Parser β} (h : ∀ b, FollowsOr E (f b) c Q) :
    FollowsOr E (atLineEnd >>= f) c Q := h _

theorem follows_expect (kind : Token.Kind) (c : Cursor) :
    Follows (expect kind) c fun t c' => (c.peek.kind = kind ∧ t = c.peek) ∧
      c.Reads (kind != .eof) kind.closes kind.opens c' := by
  refine follows_peek ?_
  split
  · next h => exact ⟨c.precedes_advance, ⟨h, rfl⟩, Cursor.reads_advance_kind h⟩
  · exact follows_fail _

theorem reads_advance_op {s : String} (h : c.peek.isOp s = true) : c.Reads true 0 0 c.advance :=
  Cursor.reads_advance_kind (Token.isOp_iff.1 h).1

theorem reads_advance_keyword {s : String} (h : c.peek.isKeyword s = true) :
    c.Reads true 0 0 c.advance :=
  Cursor.reads_advance_kind (Token.isKeyword_iff.1 h).1

theorem follows_expectOp (s : String) (c : Cursor) :
    Follows (expectOp s) c fun t c' => (t.isOp s = true ∧ c'.past.head? = some t) ∧
      c.Reads true 0 0 c' := by
  refine follows_peek ?_
  split
  · next h =>
    have hk := (Token.isOp_iff.1 h).1
    exact ⟨c.precedes_advance, ⟨h, Cursor.head?_past_advance (by simp [hk])⟩, reads_advance_op h⟩
  · exact follows_fail _

theorem follows_expectKeyword (s : String) (c : Cursor) :
    Follows (expectKeyword s) c fun _ c' => (c.peek.kind = .keyword ∧ c' = c.advance) ∧
      c.Reads true 0 0 c' := by
  refine follows_peek ?_
  split
  · next h =>
    exact ⟨c.precedes_advance, ⟨(Token.isKeyword_iff.1 h).1, rfl⟩, reads_advance_keyword h⟩
  · exact follows_fail _

theorem Follows.attempt (h : Follows p c R) :
    Follows (attempt p) c fun o c' => o.elim (c' = c) (R · c') := by
  unfold Follows FollowsOr at *
  unfold Parser.attempt
  cases hp : p c with
  | ok a c' =>
    rw [hp] at h
    exact h
  | error e c' => exact ⟨.refl c, rfl⟩

theorem follows_endStatement (c : Cursor) :
    Follows endStatement c fun _ c' => c.Reads false 0 0 c' := by
  have hcases : endStatement c = .ok () c ∨
      (c.peek.kind = .newline ∧ endStatement c = .ok () c.advance) ∨
      ∃ cause, endStatement c = .error (.atToken c.peek cause) c := by
    unfold endStatement
    split
    · exact .inl rfl
    · split
      · next hk => exact .inr (.inl ⟨hk, rfl⟩)
      · exact .inl rfl
      · exact .inl rfl
      · exact .inr (.inr ⟨_, rfl⟩)
  unfold Follows FollowsOr
  obtain h | ⟨hk, h⟩ | ⟨cause, h⟩ := hcases
  · rw [h]
    exact ⟨.refl c, .refl c⟩
  · rw [h]
    exact ⟨c.precedes_advance, (Cursor.reads_advance_kind hk).weaken⟩
  · rw [h]
    exact c.failsOr_refl (.inl rfl) cause

theorem follows_enter (d : Nesting) (c : Cursor) : Follows d.enter c fun _ c' => c' = c := by
  unfold Nesting.enter
  split
  · exact follows_peek (follows_fail _)
  · exact follows_pure rfl

/-- What holds of the result and the cursor if a parser succeeds. -/
def Ensures (p : Parser α) (c : Cursor) (R : α → Cursor → Prop) : Prop :=
  ∀ a c', p c = .ok a c' → R a c'

theorem FollowsOr.ensures (h : FollowsOr E p c R) : Ensures p c R := by
  intro a c' hp
  rw [FollowsOr, hp] at h
  exact h.2

theorem ensures_pure {a : α} (h : R a c) : Ensures (pure a) c R :=
  FollowsOr.ensures (E := fun _ => False) (follows_pure h)

theorem ensures_fail (t : Token) (cause : ParseError.Cause) : Ensures (fail t cause) c R := nofun

theorem ensures_unexpected : Ensures unexpected c R := nofun

theorem Ensures.mono (h : Ensures p c R) (h' : ∀ a c', R a c' → S a c') : Ensures p c S :=
  fun a c' hp => h' a c' (h a c' hp)

theorem Ensures.bind {f : α → Parser β} (h : Ensures p c R)
    (h' : ∀ a c', R a c' → Ensures (f a) c' Q) : Ensures (p >>= f) c Q := by
  intro b c'' hb
  change EStateM.bind p f c = _ at hb
  rw [EStateM.bind] at hb
  split at hb
  · next a c' ha => exact h' a c' (h a c' ha) b c'' hb
  · cases hb

theorem bind_error {f : α → Parser β} {c s : Cursor} {e : ParseError} (h : p c = .error e s) :
    (p >>= f) c = .error e s := by
  change EStateM.bind p f c = _
  rw [EStateM.bind, h]

theorem bind_ok {f : α → Parser β} {c c' : Cursor} {a : α} (h : p c = .ok a c') :
    (p >>= f) c = f a c' := by
  change EStateM.bind p f c = _
  rw [EStateM.bind, h]

theorem peek_ok (t : Token) (past rest : List Token) :
    peek ⟨past, t :: rest⟩ = .ok t ⟨past, t :: rest⟩ := rfl

theorem advance_ok (t : Token) (past rest : List Token) :
    advance ⟨past, t :: rest⟩ = .ok t ⟨t :: past, rest⟩ := rfl

theorem expect_ok {kind : Token.Kind} {t : Token} (h : t.kind = kind) (past rest : List Token) :
    expect kind ⟨past, t :: rest⟩ = .ok t ⟨t :: past, rest⟩ := by
  change (if t.kind = kind then advance else _) (Cursor.mk past (t :: rest)) = _
  rw [if_pos h]
  rfl

theorem expectOp_ok {s : String} {t : Token} (h : t.isOp s = true) (past rest : List Token) :
    expectOp s ⟨past, t :: rest⟩ = .ok t ⟨t :: past, rest⟩ := by
  change (if t.isOp s = true then advance else _) (Cursor.mk past (t :: rest)) = _
  rw [if_pos h]
  rfl

theorem attempt_ok {c' : Cursor} {a : α} (h : p c = .ok a c') : attempt p c = .ok (some a) c' := by
  rw [attempt, h]

theorem attempt_none (h : ∀ a c', p c ≠ .ok a c') : attempt p c = .ok none c := by
  unfold attempt
  split
  · next a c' hp => exact absurd hp (h a c')
  · rfl

theorem ensures_peek {f : Token → Parser β} (h : Ensures (f c.peek) c Q) :
    Ensures (peek >>= f) c Q := h

theorem ensures_peekNext {f : Token → Parser β} (h : Ensures (f c.peekNext) c Q) :
    Ensures (peekNext >>= f) c Q := h

theorem ensures_advance {f : Token → Parser β} (h : Ensures (f c.peek) c.advance Q) :
    Ensures (advance >>= f) c Q := h

theorem ensures_atLineEnd {f : Bool → Parser β} (h : ∀ b, Ensures (f b) c Q) :
    Ensures (atLineEnd >>= f) c Q := h _

theorem ensures_expect (kind : Token.Kind) (c : Cursor) :
    Ensures (expect kind) c fun _ c' => c.peek.kind = kind ∧
      c.Reads (kind != .eof) kind.closes kind.opens c' :=
  (follows_expect kind c).ensures.mono fun _ _ h => ⟨h.1.1, h.2⟩

theorem ensures_expectOp (s : String) (c : Cursor) :
    Ensures (expectOp s) c fun t c' => (t.isOp s = true ∧ c'.past.head? = some t) ∧
      c.Reads true 0 0 c' := (follows_expectOp s c).ensures

theorem ensures_expectKeyword (s : String) (c : Cursor) :
    Ensures (expectKeyword s) c fun _ c' => c.Reads true 0 0 c' :=
  (follows_expectKeyword s c).ensures.mono fun _ _ h => h.2

theorem Ensures.attempt (h : Ensures p c R) :
    Ensures (attempt p) c fun o c' => o.elim (c' = c) (R · c') := by
  intro o c' ho
  unfold Parser.attempt at ho
  split at ho
  · next a c'' hp =>
    cases ho
    exact h a c' hp
  · cases ho
    rfl

theorem ensures_endStatement (c : Cursor) :
    Ensures endStatement c fun _ c' => c.Reads false 0 0 c' := (follows_endStatement c).ensures

theorem ensures_enter (d : Nesting) (c : Cursor) : Ensures d.enter c fun _ c' => c' = c :=
  (follows_enter d c).ensures

end Parser

end Pine
