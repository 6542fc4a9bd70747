import Pine.Proofs.Grammar.Heads
import Pine.Proofs.Grammar.Precedence
import Pine.Proofs.Program.Concat

/-!
# Room for nesting

A ceiling on the depth of nesting makes rules fail that would succeed with more room. Where a rule
succeeds it gives the same result with more room: the rules read on in the same way, up to the
attempts. Only the attempt to read the head of a function depends on the room, since a default value
may be nested too deeply. If the head is read with more room, the line goes on with an arrow after
the parentheses; without the head it is read as a call, which ends in front of the arrow, and no
statement ends there. So the statement fails with less room.
-/

namespace Pine

open List

/-! ### Room -/

/-- The first place has no more room below its ceiling than the second. -/
def Nesting.Narrower (d d' : Nesting) : Prop :=
  d'.limit = 0 ∨ 0 < d.limit ∧ d.limit + d'.depth ≤ d'.limit + d.depth

namespace Parser

variable {α : Type} {p : Parser α}

theorem attempt_error {c s : Cursor} {e : ParseError} (h : p c = .error e s) :
    attempt p c = .ok none c := by
  rw [attempt, h]

end Parser

namespace Grammar

open Pine.Parser

/-- What is read below a ceiling is read in the same way with more room. -/
def Roomy {α : Type} (q : Nesting → Parser α) (c : Cursor) : Prop :=
  ∀ d d', d.Narrower d' → ∀ a c', q d c = .ok a c' → q d' c = .ok a c'

/-- **More room is a law**: one level deeper there is still no more room in the first place. -/
instance law_roomy : Rule.Law Roomy where
  const _ _ _ _ _ _ _ hok := hok
  bind {α β q g c} hq hg d d' hd b c' hok := by
    change EStateM.bind (q d) _ c = _ at hok
    unfold EStateM.bind at hok
    cases hp : q d c with
    | ok a c₁ =>
      rw [hp] at hok
      change (q d' >>= fun a => g a d') c = _
      rw [bind_ok (hq d d' hd a c₁ hp)]
      exact hg d a c₁ hp d d' hd b c' hok
    | error e c₁ =>
      rw [hp] at hok
      cases hok
  enter {α q c} hq d d' hd b c' hok := by
    change (d.enter >>= q) c = _ at hok
    change (d'.enter >>= q) c = _
    by_cases hroom : 0 < d.limit ∧ d.limit < d.depth + 1
    · have hfail : d.enter c = .error (.atToken c.peek (.tooDeep d.limit)) c := by
        unfold Nesting.enter
        rw [if_pos hroom]
        rfl
      rw [bind_error hfail] at hok
      cases hok
    · have hroom' : ¬(0 < d'.limit ∧ d'.limit < d'.depth + 1) := by
        unfold Nesting.Narrower at hd
        omega
      have henter {d : Nesting} (hd : ¬(0 < d.limit ∧ d.limit < d.depth + 1)) :
          d.enter c = .ok { d with depth := d.depth + 1 } c := by
        unfold Nesting.enter
        rw [if_neg hd]
        rfl
      rw [bind_ok (henter hroom)] at hok
      rw [bind_ok (henter hroom')]
      refine hq _ _ ?_ b c' hok
      unfold Nesting.Narrower at hd ⊢
      dsimp only
      omega

end Grammar

/-! ### Calls in front of an arrow -/

/-- Stretches with matching brackets that are closed by a parenthesis are the same. -/
theorem Token.inner_unique {xs xs' ys ys' : List Token} {t t' : Token}
    (h : xs ++ t :: ys = xs' ++ t' :: ys') (ht : t.kind = .rparen) (ht' : t'.kind = .rparen)
    (hx : ∀ m, levelAfter m xs = m) (hx' : ∀ m, levelAfter m xs' = m) : xs = xs' := by
  -- a stretch past the closing parenthesis of the other one cannot tell the levels 0 and 1 apart
  have hshort {zs : List Token} {u : Token} {vs : List Token} (hz : ∀ m, levelAfter m zs = m)
      (hu : u.kind = .rparen) (hall : ∀ m, levelAfter m (zs ++ u :: vs) = m) : False := by
    have hsame : levelAfter 0 (zs ++ u :: vs) = levelAfter 1 (zs ++ u :: vs) := by
      rw [levelAfter_append, levelAfter_append, hz, hz]
      simp [levelAfter, hu, Layout.nest]
    rw [hall, hall] at hsame
    cases hsame
  rcases append_eq_append_iff.1 h with ⟨as, rfl, has⟩ | ⟨bs, rfl, hbs⟩
  · cases as with
    | nil => simp
    | cons a as =>
      obtain ⟨rfl, -⟩ := List.cons.inj has
      exact (hshort hx ht hx').elim
  · cases bs with
    | nil => simp
    | cons b bs =>
      obtain ⟨rfl, -⟩ := List.cons.inj hbs
      exact (hshort hx' ht' hx).elim

/-- A name, matching parentheses and an arrow. -/
structure Token.HeadShape (name lp : Token) (inner : List Token) (rp arrow : Token) : Prop where
  name : name.kind = .identifier
  lparen : lp.kind = .lparen
  inner : ∀ m, Token.levelAfter m inner = m
  rparen : rp.kind = .rparen
  arrow : arrow.isOp "=>" = true

/-- No expression goes on here and no statement ends here. -/
def Cursor.Blocked (c : Cursor) : Prop :=
  c.lastKind ≠ .dedent ∧ (c.peek.kind = .lparen ∨ c.peek.isOp "=>" = true)

theorem Cursor.Blocked.isOp {c : Cursor} (h : c.Blocked) {s : String} (hs : s ≠ "=>") :
    c.peek.isOp s = false := by
  rw [← Bool.not_eq_true, Token.isOp_iff]
  rintro ⟨hk, hl⟩
  rcases h.2 with h | h
  · rw [hk] at h
    cases h
  · exact hs (hl.symm.trans (Token.isOp_iff.1 h).2)

namespace Grammar

open Pine.Parser

theorem Rules.funcHead_shape {r : Rules} (hr : r.Sound) (d : Nesting) (c : Cursor) :
    Ensures (r.funcHead d) c fun _ _ => ∃ name lp inner rp arrow tail,
      c.rest = name :: lp :: (inner ++ rp :: arrow :: tail) ∧
        Token.HeadShape name lp inner rp arrow := by
  refine (ensures_expect_advance .identifier c).bind ?_
  rintro _ _ ⟨⟨rfl, hname⟩, rfl⟩
  refine (ensures_expect_advance .lparen c.advance).bind ?_
  rintro _ _ ⟨⟨rfl, hlp⟩, rfl⟩
  refine (params_grows hr d _).ensures.bind fun params c₃ ⟨_, hspans⟩ => ?_
  obtain ⟨inner, hrest, -, hinner, -⟩ := hspans.reads
  refine (ensures_expect_advance .rparen c₃).bind ?_
  rintro _ _ ⟨⟨rfl, hrp⟩, rfl⟩
  refine (ensures_expectOp_advance "=>" c₃.advance).bind ?_
  rintro _ _ ⟨⟨rfl, harrow⟩, rfl⟩
  refine ensures_pure ⟨c.peek, c.advance.peek, inner, c₃.peek, c₃.advance.peek,
    c₃.advance.advance.rest, ?_, hname, hlp, hinner, hrp, harrow⟩
  have hop : c₃.advance.peek.kind = .operator := (Token.isOp_iff.1 harrow).1
  rw [Cursor.rest_eq_cons (c := c) (by simp [hname]),
    Cursor.rest_eq_cons (c := c.advance) (by simp [hlp]), hrest,
    Cursor.rest_eq_cons (c := c₃) (by simp [hrp]),
    Cursor.rest_eq_cons (c := c₃.advance) (by simp [hop])]

section Blocked

variable {name lp rp arrow : Token} {inner tail past : List Token}

/-- The arguments of a call end in front of the arrow. -/
theorem Rules.args_blocked {r : Rules} (hr : r.Sound) (d : Nesting)
    (h : Token.HeadShape name lp inner rp arrow) :
    Ensures (r.args d) ⟨past, lp :: (inner ++ rp :: arrow :: tail)⟩ fun _ c' =>
      c'.lastKind ≠ .dedent ∧ c'.peek.isOp "=>" = true := by
  refine (ensures_expect_advance .lparen _).bind ?_
  rintro _ _ ⟨-, rfl⟩
  refine (argItems_grows hr d _).ensures.bind fun args c₂ ⟨_, hspans⟩ => ?_
  obtain ⟨inner', hrest, -, hinner', -⟩ := hspans.reads
  refine (ensures_expect_advance .rparen c₂).bind ?_
  rintro _ _ ⟨⟨rfl, hrp⟩, rfl⟩
  have hsplit : inner ++ rp :: arrow :: tail = inner' ++ c₂.peek :: c₂.advance.rest := by
    rw [← Cursor.rest_eq_cons (by simp [hrp])]
    exact hrest
  obtain rfl := Token.inner_unique hsplit h.rparen hrp h.inner hinner'
  have htail := (List.cons.inj (append_cancel_left hsplit)).2
  refine ensures_pure ⟨?_, ?_⟩
  · rw [Cursor.lastKind_advance (by simp [hrp]), hrp]
    simp
  · rw [Cursor.peek, ← htail]
    exact h.arrow

theorem Rules.suffixes_blocked {r : Rules} (d : Nesting) {c : Cursor}
    (h : c.lastKind ≠ .dedent ∧ c.peek.isOp "=>" = true) : (n : Nat) → (e : Expr) →
    Ensures (r.suffixes d n e) c fun _ c' => c'.Blocked
  | 0, _ => ensures_pure ⟨h.1, .inr h.2⟩
  | n + 1, e => by
    have hblocked : c.Blocked := ⟨h.1, .inr h.2⟩
    refine ensures_peek ?_
    rw [(Token.isOp_iff.1 h.2).1]
    dsimp only
    rw [if_neg (by simp [hblocked.isOp])]
    exact ensures_pure hblocked

theorem Rules.suffixed_blocked {r : Rules} (hr : r.Sound) (d : Nesting)
    (h : Token.HeadShape name lp inner rp arrow) :
    Ensures (r.suffixed d) ⟨past, name :: lp :: (inner ++ rp :: arrow :: tail)⟩ fun _ c' =>
      c'.Blocked := by
  have hprimary : Ensures (r.primary d) ⟨past, name :: lp :: (inner ++ rp :: arrow :: tail)⟩
      fun _ c' => c' = ⟨name :: past, lp :: (inner ++ rp :: arrow :: tail)⟩ := by
    have hk : (Cursor.mk past (name :: lp :: (inner ++ rp :: arrow :: tail))).peek.kind =
        .identifier := h.name
    refine ensures_peek ?_
    rw [hk]
    exact ensures_advance (ensures_pure rfl)
  refine hprimary.bind ?_
  rintro e _ rfl
  cases r.fuel with
  | zero => exact ensures_pure ⟨by simp [Cursor.lastKind, h.name], .inl h.lparen⟩
  | succ n =>
    have hk : (Cursor.mk (name :: past) (lp :: (inner ++ rp :: arrow :: tail))).peek.kind =
        .lparen := h.lparen
    refine ensures_peek ?_
    rw [hk]
    exact (args_blocked hr d h).bind fun args c₁ h₁ => suffixes_blocked d h₁ n _

theorem Rules.chain_blocked {next : Parser Expr} {ops : List BinaryOp}
    (hops : ∀ op ∈ ops, op.spelling ≠ "=>") {c : Cursor} (h : c.Blocked) : (n : Nat) →
    (left : Expr) → Ensures (chain next ops n left) c fun _ c' => c'.Blocked
  | 0, _ => ensures_pure h
  | n + 1, _ => by
    refine ensures_peek ?_
    rw [if_neg]
    · exact ensures_pure h
    · rw [any_eq_true]
      rintro ⟨op, hop, hs⟩
      rw [h.isOp (hops op hop)] at hs
      cases hs

theorem Rules.binary_blocked {r : Rules} (hr : r.Sound) (d : Nesting)
    (h : Token.HeadShape name lp inner rp arrow) : (ls : List (List BinaryOp)) →
    (∀ ops ∈ ls, ∀ op ∈ ops, op.spelling ≠ "=>") →
    Ensures (r.binary d ls) ⟨past, name :: lp :: (inner ++ rp :: arrow :: tail)⟩ fun _ c' =>
      c'.Blocked
  | [], _ => by
    rw [binary]
    cases r.fuel with
    | zero => exact ensures_unexpected
    | succ n =>
      intro e c' hok
      rw [unary_of_kind_ne r d n (by simp [h.name])] at hok
      exact suffixed_blocked hr d h e c' hok
  | ops :: tighter, hls => by
    refine (binary_blocked hr d h tighter fun o ho => hls o (mem_cons_of_mem ops ho)).bind
      fun left c₁ h₁ => ?_
    exact chain_blocked (hls ops (mem_cons_self ..)) h₁ r.fuel left

theorem Rules.expression_blocked {r : Rules} (hr : r.Sound) (d : Nesting)
    (h : Token.HeadShape name lp inner rp arrow) :
    Ensures (r.expression d) ⟨past, name :: lp :: (inner ++ rp :: arrow :: tail)⟩ fun _ c' =>
      c'.Blocked := by
  refine (ensures_enter d _).bind ?_
  rintro d' _ rfl
  refine (binary_blocked hr d' h levels (by decide)).bind fun cond c₁ h₁ => ensures_peek ?_
  rw [if_neg (by simp [h₁.isOp])]
  exact ensures_pure h₁

/-- **What starts like the head of a function is no simple statement**: it is read as a call, and no
statement ends in front of an arrow. -/
theorem simpleStatement_blocked (n : Nat) (d : Nesting)
    (h : Token.HeadShape name lp inner rp arrow) :
    Ensures ((rulesAt n).simpleStatement d) ⟨past, name :: lp :: (inner ++ rp :: arrow :: tail)⟩
      fun _ _ => False := by
  have hexpr : Ensures ((rulesAt n).expr d) ⟨past, name :: lp :: (inner ++ rp :: arrow :: tail)⟩
      fun _ c' => c'.Blocked := by
    cases n with
    | zero => exact ensures_unexpected
    | succ n => exact Rules.expression_blocked (sound_at n) d h
  have hsimple : Ensures ((rulesAt n).simple d) ⟨past, name :: lp :: (inner ++ rp :: arrow :: tail)⟩
      fun _ c' => c'.Blocked := by
    refine ensures_peek (hexpr.bind fun e c₁ h₁ => ensures_peek ?_)
    rw [if_neg (by simp [h₁.isOp]), if_neg (by simp [h₁.isOp])]
    exact ensures_pure h₁
  refine hsimple.bind fun s c₁ h₁ => Ensures.bind (R := fun _ _ => False) ?_ nofun
  intro _ c' hok
  rw [endStatement, if_neg h₁.1] at hok
  rcases h₁.2 with hk | hk
  · rw [hk] at hok
    cases hok
  · rw [(Token.isOp_iff.1 hk).1] at hok
    cases hok

/-- What starts like the head of a function is no typed declaration. -/
theorem declHead_blocked (fuel : Nat) (typed : Bool) (h : Token.HeadShape name lp inner rp arrow) :
    Ensures (declHead fuel typed) ⟨past, name :: lp :: (inner ++ rp :: arrow :: tail)⟩
      fun _ _ => False := by
  refine (declHead_ensures fuel typed _).mono ?_
  rintro _ _ ⟨c₂, ⟨used, hrest, -, hused⟩, hop, -⟩
  have hrest₂ : c₂.rest = c₂.peek :: c₂.advance.rest :=
    Cursor.rest_eq_cons (by simp [(Token.isOp_iff.1 hop).1])
  change name :: lp :: _ = used ++ c₂.rest at hrest
  match used with
  | [] =>
    rw [hrest₂, nil_append, List.cons.injEq] at hrest
    have hk := (Token.isOp_iff.1 hop).1
    rw [← hrest.1, h.name] at hk
    cases hk
  | [t] =>
    rw [hrest₂, singleton_append, List.cons.injEq, List.cons.injEq] at hrest
    have hk := (Token.isOp_iff.1 hop).1
    rw [← hrest.2.1, h.lparen] at hk
    cases hk
  | t :: u :: used =>
    rw [cons_append, cons_append, List.cons.injEq, List.cons.injEq] at hrest
    exact (hused u (by simp)).1 (hrest.2.1 ▸ h.lparen)

end Blocked

/-! ### Closing the circle -/

section Statement

variable {m n n' : Nat} {c : Cursor}

/-- With a head of a function in front, no other statement is read. -/
theorem namedStatement_blocked {d d' : Nesting} {c₁ : Cursor} {head : FuncHead}
    (h : (rulesAt n).funcHead d' c = .ok head c₁) :
    Ensures ((rulesAt n).namedStatement d) c fun _ _ => False := by
  obtain ⟨past, rest⟩ := c
  obtain ⟨name, lp, inner, rp, arrow, tail, hrest, hshape⟩ :=
    Rules.funcHead_shape (sound_at n) d' _ head c₁ h
  change rest = _ at hrest
  subst hrest
  intro s c' hok
  have hdecl : Ensures (declHead n true) ⟨past, name :: lp :: (inner ++ rp :: arrow :: tail)⟩
      fun _ _ => False := declHead_blocked n true hshape
  have hnone := attempt_none fun head c' hok => hdecl head c' hok
  exact simpleStatement_blocked n d hshape s c' ((bind_ok hnone).symm.trans hok)

theorem identifierStatement_roomy (h : (Rule.partsAt n).Mirrors Roomy (rulesAt n') m)
    (hc : c.ahead < m) : Roomy (rulesAt n').identifierStatement c := by
  intro d d' hd s c' hok
  have hhead := h.funcHead (Nat.le_of_lt hc)
  unfold Rules.identifierStatement at hok ⊢
  cases hf : (rulesAt n').funcHead d c with
  | ok head c₁ =>
    have hmoves := hhead.moves d
    rw [hf] at hmoves
    have hlt : c₁.ahead < m := Nat.lt_of_le_of_lt hmoves.1.ahead_le hc
    rw [bind_ok (attempt_ok hf)] at hok
    rw [bind_ok (attempt_ok (hhead.law d d' hd head c₁ hf))]
    exact (h.funcBody head false hlt).law d d' hd s c' hok
  | error e c₁ =>
    rw [bind_ok (attempt_error hf)] at hok
    cases hf' : (rulesAt n').funcHead d' c with
    | ok head c₂ => exact (namedStatement_blocked hf' s c' hok).elim
    | error e' c₂ =>
      rw [bind_ok (attempt_error hf')]
      exact (h.namedStatement hc).law d d' hd s c' hok

end Statement

/-- A program without errors is the same with more room for its statements. -/
theorem program_roomy {p : Rule Stmt} {stmt : Nesting → Parser Stmt} {m : Nat}
    (h : ∀ c, c.ahead ≤ m → Rule.At Roomy 1 p stmt c) {d d' : Nesting} (hd : d.Narrower d') :
    (n errors : Nat) → (c : Cursor) → c.ahead ≤ m → (program (stmt d) n errors c).2 = [] →
    program (stmt d') n errors c = program (stmt d) n errors c
  | 0, _, _, _, _ => rfl
  | n + 1, errors, c, hc, he => by
    by_cases heof : c.peek.kind = .eof
    · rw [program_eof heof, program_eof heof]
    by_cases hl : c.peek.kind.isLayout = true
    · rw [program_layout hl] at he ⊢
      rw [program_layout hl]
      exact program_roomy h hd n errors c.advance (Nat.le_trans c.precedes_advance.ahead_le hc) he
    have htext : c.peek.kind.isText = true := by simp [Token.Kind.isText, hl, heof]
    cases hs : stmt d c with
    | ok s c' =>
      have hmoves := (h c hc).moves d
      rw [hs] at hmoves
      rw [program_ok htext hs] at he ⊢
      rw [program_ok htext ((h c hc).law d d' hd s c' hs),
        program_roomy h hd n errors c' (Nat.le_trans hmoves.1.ahead_le hc) he]
    | error e c' =>
      rw [program_error htext hs] at he
      split at he <;> cases he

end Grammar

/-- Ceilings that allow at least as much as others; zero allows all. -/
structure Limits.Within (limits limits' : Limits) : Prop where
  tokens : limits'.maxTokens = 0 ∨ 0 < limits.maxTokens ∧ limits.maxTokens ≤ limits'.maxTokens
  depth : limits'.maxDepth = 0 ∨ 0 < limits.maxDepth ∧ limits.maxDepth ≤ limits'.maxDepth

/-- **A program without errors is the same under higher ceilings.** -/
theorem Program.parse_of_room {limits limits' : Limits} (h : limits.Within limits')
    {tokens : List Token} (he : (Program.parse limits tokens).errors = []) :
    Program.parse limits' tokens = Program.parse limits tokens := by
  have htokens := h.tokens
  have hparts := Rule.mirrors_at Grammar.identifierStatement_roomy _ _ _
    (Nat.le_refl (tokens.length + 2)) (Nat.le_refl _)
  rw [Program.parse_eq_program] at he ⊢
  by_cases hcount : 0 < limits.maxTokens ∧ limits.maxTokens < tokens.length
  · rw [if_pos hcount] at he
    cases he
  · have hroom : (⟨0, limits.maxDepth⟩ : Nesting).Narrower ⟨0, limits'.maxDepth⟩ := h.depth
    rw [if_neg hcount] at he
    have hsame := Grammar.program_roomy (m := tokens.length) (fun c hc => hparts.stmt c (by omega))
      hroom (tokens.length + 1) 0 (.start tokens) (Nat.le_refl _) he
    rw [Program.parse_eq_program, if_neg (by omega), if_neg hcount]
    exact congrArg (fun read => (⟨read.1, read.2⟩ : Parsed)) hsame

end Pine
