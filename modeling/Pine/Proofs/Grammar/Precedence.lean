import Pine.Proofs.Grammar.Stages
import Pine.Proofs.Grammar.State

/-!
# Reading spelled expressions

The words of an expression are read back as the same expression. An operand is read at the level
that its place demands: it begins that level if it binds tightly enough, and otherwise it stands in
parentheses, which begin every level. One lemma for each form of expression says how the form is
read if its operands are, and the whole is an induction over the expression.

Where a name is followed by `<`, type arguments are tried first. In a spelling with as few
parentheses as possible the attempt fails if no `>` stands right before a parenthesis; in a full
spelling it fails because a parenthesis closes in front of the matching `>`.
-/

namespace Pine.Grammar

open Pine.Parser Rules List

/-! ### Lines without type arguments -/

/-- In a spelling that is not full, no `>` stands right before a parenthesis up to the end of the
line. -/
def Calm (full : Bool) (ts rest : List Token) : Prop :=
  full = true ∨ ∃ mid nl tail, rest = mid ++ nl :: tail ∧ nl.kind = .newline ∧
    (ts ++ mid).IsChain Token.Apart

variable {full : Bool} {e : Expr} {ts rest : List Token}

theorem Calm.drop (us : List Token) (h : Calm full (us ++ ts) rest) : Calm full ts rest := by
  rcases h with h | ⟨mid, nl, tail, hr, hn, hc⟩
  · exact .inl h
  · rw [append_assoc] at hc
    exact .inr ⟨mid, nl, tail, hr, hn, hc.right_of_append⟩

theorem Calm.take {us : List Token} (h : Calm full (ts ++ us) rest) : Calm full ts (us ++ rest) := by
  rcases h with h | ⟨mid, nl, tail, rfl, hn, hc⟩
  · exact .inl h
  · rw [append_assoc] at hc
    exact .inr ⟨us ++ mid, nl, tail, by rw [append_assoc], hn, hc⟩

/-! ### Operands -/

/-- The words of an expression are read back. -/
structure Readable (full : Bool) (e : Expr) : Prop where
  opens : Word.Opens (8 ≤ e.prec) (e.spell full)
  bindsLate : Word.bindsLate (e.spell full) = true
  holdsOpen : 8 ≤ e.prec → ∀ ws, Word.holdsOpen 1 ws = true →
    Word.holdsOpen 1 (e.spell full ++ ws) = true
  /-- The rule of the level of the expression reads the words, in front of what the level does not
  go on with. A full spelling of an operator is in parentheses, and `na` is no function. -/
  begins : ∀ ts rest, ts.map Token.word = e.spell full → Calm full ts rest →
    (full = true → e.prec < 8 → ∀ t ∈ rest.head?, t.kind = .rparen) →
    (e.prec < 8 → StopsAt (due e.prec) rest) →
    (e.isNa = true → ∀ t ∈ rest.head?, t.kind ≠ .lparen) → Begins e.prec e ts rest

theorem exists_of_grouped {ws : List Word} (h : ts.map Token.word = Word.grouped ws) :
    ∃ lp us rp, ts = lp :: us ++ [rp] ∧ lp.kind = .lparen ∧ rp.kind = .rparen ∧
      us.map Token.word = ws := by
  obtain ⟨lp, ts, rfl, hlp, h⟩ := map_eq_cons_iff.1 h
  obtain ⟨us, ts, rfl, hus, h⟩ := map_eq_append_iff.1 h
  obtain ⟨rp, ts, rfl, hrp, h⟩ := map_eq_cons_iff.1 h
  cases map_eq_nil_iff.1 h
  exact ⟨lp, us, rp, rfl, congrArg Prod.fst hlp, congrArg Prod.fst hrp, hus⟩

theorem exists_cons_of_mem_head? {w : Word} (h : w ∈ (ts.map Token.word).head?) :
    ∃ t us, ts = t :: us ∧ t.word = w := by
  cases ts with
  | nil => cases h
  | cons t us => exact ⟨t, us, rfl, Option.some.inj h⟩

theorem startsTight_of_opens {P : Prop} (hP : P) {ws : List Word} (h : Word.Opens P ws)
    (hts : ts.map Token.word = ws) : StartsTight ts := by
  obtain ⟨w, hw, -, ht⟩ := h
  rw [← hts] at hw
  obtain ⟨t, us, rfl, rfl⟩ := exists_cons_of_mem_head? hw
  exact ⟨t, us, rfl, ht hP⟩

/-- An operand in parentheses begins every level. -/
theorem Readable.grouped (h : Readable full e) (hts : ts.map Token.word = Word.grouped (e.spell full))
    (hc : Calm full ts rest) {demand : Nat} (hd : demand ≤ 8)
    (hf : demand < 8 → StopsAt (due demand) rest) : Begins demand e ts rest := by
  obtain ⟨lp, us, rp, rfl, hlp, hrp, hus⟩ := exists_of_grouped hts
  have hends : endsOperand rp.kind = true := by rw [hrp]; rfl
  have hf₀ (k : Nat) : StopsAt k (rp :: rest) := stopsAt_of_endsOperand k hends rest
  have hinner : Begins e.prec e us (rp :: rest) := by
    refine h.begins us (rp :: rest) hus (Calm.drop [lp] hc.take) ?_ (fun _ => hf₀ _) ?_
    · rintro - - _ ⟨⟩
      exact hrp
    · rintro - _ ⟨⟩
      simp [hrp]
  have htaken : Takes 0 e us (rp :: rest) := by
    refine (hinner.lower e.prec_le (Nat.zero_le _) (fun _ => hf₀ _) fun h8 => ?_).takes (hf₀ 0)
    exact startsTight_of_opens (Nat.le_of_eq h8.symm) h.opens hus
  exact (htaken.grouped hlp hrp).lower (Nat.le_refl 8) hd hf fun _ => ⟨lp, _, rfl, by simp [hlp]⟩

/-- **An operand is read at the level that its place demands.** -/
theorem Readable.operand (h : Readable full e) {demand : Nat} (hd : demand ≤ 8)
    (hts : ts.map Token.word = e.operand full demand (e.spell full)) (hc : Calm full ts rest)
    (hf : demand < 8 → StopsAt (due demand) rest)
    (hna : e.isNa = true → ∀ t ∈ rest.head?, t.kind ≠ .lparen) : Begins demand e ts rest := by
  unfold Expr.operand at hts
  generalize hk : (if full then 8 else demand) = k at hts
  by_cases hp : e.prec < k
  · rw [if_pos hp] at hts
    exact h.grouped hts hc hd hf
  · rw [if_neg hp] at hts
    have hdk : demand ≤ k := by cases full <;> simp at hk <;> omega
    have hdp : demand ≤ e.prec := by omega
    have hdue (h8 : e.prec < 8) : StopsAt (due e.prec) rest :=
      (hf (by omega)).mono (by unfold due; split <;> split <;> omega)
    have hself : Begins e.prec e ts rest := by
      refine h.begins ts rest hts hc (fun hfull h8 => absurd h8 ?_) hdue hna
      simp only [hfull, if_true] at hk
      omega
    exact hself.lower e.prec_le hdp hf fun h8 =>
      startsTight_of_opens (Nat.le_of_eq h8.symm) h.opens hts

/-- An operand is read at a level that does not go on after it. -/
theorem Readable.takes (h : Readable full e) {demand : Nat} (hd : demand < 8)
    (hts : ts.map Token.word = e.operand full demand (e.spell full)) (hc : Calm full ts rest)
    (hf : StopsAt demand rest) : Takes demand e ts rest := by
  have hdue : StopsAt (due demand) rest := hf.mono (by unfold due; split <;> omega)
  exact (h.operand (Nat.le_of_lt hd) hts hc (fun _ => hdue) fun _ => hf.kind_ne).takes hf

/-! ### Leaves -/

/-- A word that the rule of primary expressions reads as an expression begins level eight. -/
theorem begins_leaf {w : Word} (hts : ts.map Token.word = [w])
    (h : ∀ (r : Rules) d t past, t.word = w → ∃ e', e'.erase = e.erase ∧
      r.primary d ⟨past, t :: rest⟩ = .ok e' ⟨t :: past, rest⟩) : Begins 8 e ts rest := by
  obtain ⟨t, us, rfl, hw, hus⟩ := map_eq_cons_iff.1 hts
  cases map_eq_nil_iff.1 hus
  exact begins_of_primary fun n depth past _ => h (rulesAt n) ⟨depth, 0⟩ t past hw

/-- The kinds of the tokens that are expressions by themselves, with their expressions. -/
def literals : List (Token.Kind × (Pos → String → Expr)) :=
  [(.number, .number), (.string, .string), (.color, .color), (.identifier, .name),
    (.boolean, fun pos text => .bool pos (text = "true"))]

theorem begins_literal {kind : Token.Kind} (build : Pos → String → Expr)
    (hmem : (kind, build) ∈ literals) (pos : Pos) {text : String}
    (hts : ts.map Token.word = [(kind, text)]) : Begins 8 (build pos text) ts rest := by
  refine begins_leaf hts fun r d t past hw => ⟨build t.pos text, ?_, ?_⟩
  · simp only [literals, mem_cons, Prod.mk.injEq, not_mem_nil, or_false] at hmem
    rcases hmem with ⟨-, rfl⟩ | ⟨-, rfl⟩ | ⟨-, rfl⟩ | ⟨-, rfl⟩ | ⟨-, rfl⟩ <;> rfl
  · rw [← show t.lexeme = text from congrArg Prod.snd hw, primary, bind_ok (peek_ok ..),
      show t.kind = kind from congrArg Prod.fst hw]
    simp only [literals, mem_cons, Prod.mk.injEq, not_mem_nil, or_false] at hmem
    rcases hmem with ⟨rfl, rfl⟩ | ⟨rfl, rfl⟩ | ⟨rfl, rfl⟩ | ⟨rfl, rfl⟩ | ⟨rfl, rfl⟩ <;> rfl

/-- In front of a parenthesis `na` is a function. -/
theorem begins_na {pos : Pos} (hts : ts.map Token.word = [(.na, "na")])
    (hp : ∀ t ∈ rest.head?, t.kind ≠ .lparen) : Begins 8 (.na pos) ts rest := by
  refine begins_leaf hts fun r d t past hw => ⟨.na t.pos, rfl, ?_⟩
  rw [primary, bind_ok (peek_ok ..), show t.kind = .na from congrArg Prod.fst hw]
  change (if (Cursor.mk (t :: past) rest).peek.kind = .lparen then _ else _ : Parser Expr)
    (Cursor.mk (t :: past) rest) = _
  rw [if_neg]
  · rfl
  · cases rest with
    | nil => simp [Cursor.peek]
    | cons u us => exact hp u rfl

/-! ### Members and offsets -/

theorem suffixes_dot (r : Rules) (d : Nesting) (m : Nat) (e : Expr) {dot name : Token}
    (hdot : dot.kind = .dot) (hname : name.kind = .identifier ∨ name.kind = .keyword)
    (past rest : List Token) : r.suffixes d (m + 1) e ⟨past, dot :: name :: rest⟩ =
      r.suffixes d m (.member e.pos e name.lexeme) ⟨name :: dot :: past, rest⟩ := by
  rw [suffixes, bind_ok (peek_ok ..), hdot]
  change (if (name.kind = .identifier || name.kind = .keyword) = true then _ else _ : Parser Expr)
    (Cursor.mk (dot :: past) (name :: rest)) = _
  rw [if_pos (by simpa using hname)]
  rfl

theorem kind_of_label {t : Token} {s : String} (h : t.word = Word.label s) :
    t.kind = .identifier ∨ t.kind = .keyword := by
  have hk : t.kind = (Word.label s).1 := congrArg Prod.fst h
  unfold Word.label at hk
  split at hk
  · exact .inr hk
  · exact .inl hk

theorem begins_member {pos : Pos} {object : Expr} {property : String} (h : Readable full object)
    (hts : ts.map Token.word = (Expr.member pos object property).spell full)
    (hc : Calm full ts rest) : Begins 8 (.member pos object property) ts rest := by
  rw [Expr.spell] at hts
  obtain ⟨ts, us, rfl, hobject, hsuffix⟩ := map_eq_append_iff.1 hts
  obtain ⟨dot, us, rfl, hdot, hsuffix⟩ := map_eq_cons_iff.1 hsuffix
  obtain ⟨name, us, rfl, hname, hsuffix⟩ := map_eq_cons_iff.1 hsuffix
  cases map_eq_nil_iff.1 hsuffix
  have hkind : dot.kind = .dot := congrArg Prod.fst hdot
  have hread := h.operand (Nat.le_refl 8) hobject hc.take (fun h8 => absurd h8 (by simp)) fun _ => by
    rintro _ ⟨⟩
    simp [hkind]
  refine hread.suffix (by simp) fun n m depth past object' _ he => ?_
  refine ⟨_, ?_, suffixes_dot _ _ m object' hkind (kind_of_label hname) past rest⟩
  have hlex : name.lexeme = property := congrArg Prod.snd hname
  simp only [Expr.erase, Expr.relocate, hlex] at he ⊢
  rw [he]

theorem begins_index {pos : Pos} {object offset : Expr} (h : Readable full object)
    (ho : Readable full offset) (hts : ts.map Token.word = (Expr.index pos object offset).spell full)
    (hc : Calm full ts rest) : Begins 8 (.index pos object offset) ts rest := by
  rw [Expr.spell, append_assoc, cons_append] at hts
  obtain ⟨ts, us, rfl, hobject, hsuffix⟩ := map_eq_append_iff.1 hts
  obtain ⟨lb, us, rfl, hlb, hsuffix⟩ := map_eq_cons_iff.1 hsuffix
  obtain ⟨us, vs, rfl, hoffset, hsuffix⟩ := map_eq_append_iff.1 hsuffix
  obtain ⟨rb, vs, rfl, hrb, hsuffix⟩ := map_eq_cons_iff.1 hsuffix
  cases map_eq_nil_iff.1 hsuffix
  have hkind : lb.kind = .lbracket := congrArg Prod.fst hlb
  have hkind' : rb.kind = .rbracket := congrArg Prod.fst hrb
  have hread := h.operand (Nat.le_refl 8) hobject hc.take (fun h8 => absurd h8 (by simp)) fun _ => by
    rintro _ ⟨⟩
    simp [hkind]
  have htakes : Takes 0 offset us (rb :: rest) :=
    ho.takes (by simp) hoffset (Calm.take (Calm.drop [lb] (Calm.drop ts hc)))
      (stopsAt_of_endsOperand 0 (by rw [hkind']; rfl) rest)
  refine hread.suffix (by simp) fun n m depth past object' hn he => ?_
  obtain ⟨offset', he', hrun⟩ := htakes.expr (n := n) (by simp at hn; omega) depth (lb :: past)
  refine ⟨.index object'.pos object' offset', ?_, ?_⟩
  · simp only [Expr.erase, Expr.relocate] at he he' ⊢
    rw [he, he']
  · have hlist : lb :: (us ++ [rb]) ++ rest = lb :: (us ++ rb :: rest) := by simp
    rw [suffixes, hlist, bind_ok (peek_ok ..), hkind]
    change (advance >>= fun _ => exprAt n ⟨depth, 0⟩ >>= fun offset => expect .rbracket >>= fun _ =>
      (rulesAt n).suffixes ⟨depth, 0⟩ m (.index object'.pos object' offset))
      (Cursor.mk past (lb :: (us ++ rb :: rest))) = _
    rw [bind_ok (advance_ok ..), bind_ok hrun, bind_ok (expect_ok hkind' ..)]
    simp

/-! ### Lists between brackets -/

section Items

variable {α : Type} {close : Token.Kind} {item : Parser α} {erase : α → α} {spell : α → List Word}
  {bound : Nat}

theorem items_nil {t : Token} (h : t.kind = close) (fuel : Nat) (past rest : List Token) :
    items close item fuel ⟨past, t :: rest⟩ = .ok [] ⟨past, t :: rest⟩ := by
  cases fuel with
  | zero => rfl
  | succ fuel =>
    change (if t.kind = close then pure [] else _ : Parser (List α)) _ = _
    rw [if_pos h]
    rfl

theorem items_cons {t u : Token} {past past' tail tail' : List Token} {a : α} (h : t.kind ≠ close)
    (hitem : item ⟨past, t :: tail⟩ = .ok a ⟨past', u :: tail'⟩) (fuel : Nat) :
    items close item (fuel + 1) ⟨past, t :: tail⟩ = if u.kind = .comma then
      (items close item fuel >>= fun others => pure (a :: others)) ⟨u :: past', tail'⟩
      else .ok [a] ⟨past', u :: tail'⟩ := by
  change (if t.kind = close then pure [] else _ : Parser (List α)) _ = _
  rw [if_neg h, bind_ok hitem]
  change (if u.kind = Token.Kind.comma then _ else _ : Parser (List α)) _ = _
  split
  · rfl
  · rfl

/-- An item is read back in front of a comma and of the closing bracket. -/
structure ReadsItem (full : Bool) (close : Token.Kind) (item : Parser α) (erase : α → α) (bound : Nat)
    (ws : List Word) (x : α) : Prop where
  opens : ∃ w ∈ ws.head?, w.1 ≠ close
  reads : ∀ ts t tail past, ts.map Token.word = ws → ts.length < bound →
    t.kind = .comma ∨ t.kind = close → Calm full ts (t :: tail) → ∃ a, erase a = erase x ∧
      item ⟨past, ts ++ t :: tail⟩ = .ok a ⟨ts.reverse ++ past, t :: tail⟩

/-- **Items with commas between them are read back up to the closing bracket.** -/
theorem items_listed {cl : Token} (hcl : cl.kind = close) (hclose : close ≠ .comma)
    (rest : List Token) : (xs : List α) →
    (∀ x ∈ xs, ReadsItem full close item erase bound (spell x) x) → (fuel : Nat) →
    (ts past : List Token) → ts.map Token.word = Word.listed (xs.map spell) → ts.length ≤ fuel →
    ts.length < bound → Calm full ts (cl :: rest) → ∃ as, as.map erase = xs.map erase ∧
      items close item fuel ⟨past, ts ++ cl :: rest⟩ = .ok as ⟨ts.reverse ++ past, cl :: rest⟩
  | [], _, fuel, ts, past, hts, _, _, _ => by
    cases map_eq_nil_iff.1 hts
    exact ⟨[], rfl, items_nil hcl fuel past rest⟩
  | x :: xs, h, fuel, ts, past, hts, hfuel, hbound, hc => by
    rw [map_cons, Word.listed_cons] at hts
    obtain ⟨ts, us, rfl, hx, hxs⟩ := map_eq_append_iff.1 hts
    obtain ⟨⟨w, hw, hne⟩, hreads⟩ := h x (mem_cons_self ..)
    rw [length_append] at hfuel hbound
    -- the first item has a first token, which does not close the brackets
    rw [← hx] at hw
    obtain ⟨t, ts, rfl, rfl⟩ := exists_cons_of_mem_head? hw
    have hkind : t.kind ≠ close := hne
    obtain ⟨fuel, rfl⟩ : ∃ j, fuel = j + 1 := ⟨fuel - 1, by simp at hfuel; omega⟩
    cases xs with
    | nil =>
      cases map_eq_nil_iff.1 hxs
      rw [List.append_nil] at hc ⊢
      obtain ⟨a, ha, hrun⟩ := hreads _ cl rest past hx (by omega) (.inr hcl) hc
      refine ⟨[a], by simp [ha], ?_⟩
      exact (items_cons hkind hrun fuel).trans (if_neg (hcl ▸ hclose))
    | cons y ys =>
      obtain ⟨comma, us, rfl, hcomma, hys⟩ := map_eq_cons_iff.1 hxs
      have hkind' : comma.kind = .comma := congrArg Prod.fst hcomma
      obtain ⟨a, ha, hrun⟩ := hreads _ comma (us ++ cl :: rest) past hx (by omega) (.inl hkind')
        hc.take
      obtain ⟨as, has, hrec⟩ := items_listed hcl hclose rest (y :: ys)
        (fun z hz => h z (mem_cons_of_mem x hz)) fuel us (comma :: ((t :: ts).reverse ++ past)) hys
        (by simp at hfuel; omega) (by simp at hbound; omega)
        (Calm.drop [comma] (Calm.drop (t :: ts) hc))
      refine ⟨a :: as, by rw [map_cons, map_cons, ha, has], ?_⟩
      have hstep := items_cons hkind hrun fuel
      rw [if_pos hkind'] at hstep
      rw [append_assoc]
      refine hstep.trans ((bind_ok hrec).trans ?_)
      simp [pure, EStateM.pure]

end Items

theorem Readable.opens_operand (h : Readable full e) (demand : Nat) {close : Token.Kind}
    (hclose : close.startsExpr = false) :
    ∃ w ∈ (e.operand full demand (e.spell full)).head?, w.1 ≠ close := by
  obtain ⟨w, hw, hs, -⟩ := h.opens.operand full demand
  refine ⟨w, hw, ?_⟩
  rintro rfl
  rw [hclose] at hs
  cases hs

/-- An expression is read back as an item of a list. -/
theorem Readable.readsItem (h : Readable full e) {close : Token.Kind}
    (hclose : close = .rbracket ∨ close = .rparen) (n depth : Nat) :
    ReadsItem full close (exprAt n ⟨depth, 0⟩) Expr.erase n (e.operand full 0 (e.spell full)) e := by
  refine ⟨h.opens_operand 0 (by rcases hclose with rfl | rfl <;> rfl), ?_⟩
  intro ts t tail past hts hn ht hc
  have hends : endsOperand t.kind = true := by
    rcases ht with ht | ht
    · rw [ht]; rfl
    · rw [ht]
      rcases hclose with rfl | rfl <;> rfl
  exact (h.takes (by simp) hts hc (stopsAt_of_endsOperand 0 hends tail)).expr hn depth past

theorem begins_array {pos : Pos} {elements : List Expr} (h : ∀ e ∈ elements, Readable full e)
    (hts : ts.map Token.word = (Expr.array pos elements).spell full) (hc : Calm full ts rest) :
    Begins 8 (.array pos elements) ts rest := by
  rw [Expr.spell, spellExprs_eq_map] at hts
  obtain ⟨lb, ts, rfl, hlb, hinner⟩ := map_eq_cons_iff.1 hts
  obtain ⟨ts, us, rfl, hlist, hlast⟩ := map_eq_append_iff.1 hinner
  obtain ⟨rb, us, rfl, hrb, hlast⟩ := map_eq_cons_iff.1 hlast
  cases map_eq_nil_iff.1 hlast
  have hkind : lb.kind = .lbracket := congrArg Prod.fst hlb
  have hkind' : rb.kind = .rbracket := congrArg Prod.fst hrb
  refine begins_of_primary fun n depth past hn => ?_
  obtain ⟨elements', hmap, hrun⟩ := items_listed hkind' (by simp) rest elements
    (fun e he => (h e he).readsItem (.inl rfl) n depth) n ts (lb :: past) hlist
    (by simp at hn; omega) (by simp at hn; omega) (Calm.take (Calm.drop [lb] hc))
  refine ⟨.array lb.pos elements', ?_, ?_⟩
  · simp only [Expr.erase, Expr.relocate, relocateExprs_eq_map]
    exact congrArg _ hmap
  · have hcursor : lb :: (ts ++ [rb]) ++ rest = lb :: (ts ++ rb :: rest) := by simp
    rw [hcursor, primary, bind_ok (peek_ok ..), hkind]
    change (advance >>= fun _ => items .rbracket (exprAt n ⟨depth, 0⟩) n >>= fun elements =>
      expect .rbracket >>= fun _ => pure (Expr.array lb.pos elements))
      (Cursor.mk past (lb :: (ts ++ rb :: rest))) = _
    rw [bind_ok (advance_ok ..), bind_ok hrun, bind_ok (expect_ok hkind' ..)]
    simp [pure, EStateM.pure]

/-! ### Calls -/

/-- A name and a `=` in front of an argument are not part of its value. -/
theorem not_named_of_bindsLate {t u : Token} {us : List Token}
    (h : Word.bindsLate ((t :: u :: us).map Token.word) = true) :
    ((t.kind = .identifier || t.kind = .keyword) && u.isOp "=") = false := by
  cases hu : u.isOp "=" with
  | false => simp
  | true =>
    rw [map_cons, map_cons, Token.word_of_isOp hu, Word.bindsLate, Word.bindsLate] at h
    rcases (Bool.or_eq_true ..).mp h with hk | h
    · simp [show t.kind = .lparen from of_decide_eq_true hk]
    · simp [Word.op] at h

section Arg

variable {r : Rules} {d : Nesting} {t u : Token} {past tail : List Token} {value : Expr} {c : Cursor}

theorem arg_positional
    (h : ((t.kind = .identifier || t.kind = .keyword) && u.isOp "=") = false)
    (hrun : r.expr d ⟨past, t :: u :: tail⟩ = .ok value c) :
    r.arg d ⟨past, t :: u :: tail⟩ = .ok (.mk "" value) c := by
  change (if ((t.kind = .identifier || t.kind = .keyword) && u.isOp "=") = true then _ else _ :
    Parser Arg) _ = _
  rw [if_neg (by simp [h]), bind_ok hrun]
  rfl

theorem arg_named (ht : t.kind = .identifier ∨ t.kind = .keyword) (hu : u.isOp "=" = true)
    (hrun : r.expr d ⟨u :: t :: past, tail⟩ = .ok value c) :
    r.arg d ⟨past, t :: u :: tail⟩ = .ok (.mk t.lexeme value) c := by
  change (if ((t.kind = .identifier || t.kind = .keyword) && u.isOp "=") = true then _ else _ :
    Parser Arg) _ = _
  rw [if_pos (by simp [ht, hu])]
  exact bind_ok hrun

end Arg

/-- A positional argument is read back. -/
theorem readsItem_positional {value : Expr} (h : Readable full value) (n depth : Nat) :
    ReadsItem full .rparen ((rulesAt n).arg ⟨depth, 0⟩) (Arg.relocate fun _ => ⟨0, 0⟩) n
      (value.operand full 0 (value.spell full)) (.mk "" value) := by
  obtain ⟨hopens, hreads⟩ := h.readsItem (.inr rfl) n depth
  refine ⟨hopens, fun ts t tail past hts hn ht hc => ?_⟩
  obtain ⟨value', he, hrun⟩ := hreads ts t tail past hts hn ht hc
  refine ⟨.mk "" value', congrArg (Arg.mk "") he, ?_⟩
  -- no `=` follows the first token, which is not a parenthesis if it is a name
  have hlate : Word.bindsLate ((ts ++ [t]).map Token.word) = true := by
    rw [map_append, hts]
    refine Word.bindsLate_append (Word.bindsLate_operand h.bindsLate full 0 value) ?_
    refine Word.bindsLate_cons (fun hop => ?_) rfl
    rcases ht with ht | ht <;> simp [Token.word, Word.op, ht] at hop
  obtain ⟨w, hw, -⟩ := hopens
  rw [← hts] at hw
  obtain ⟨a, us, rfl, -⟩ := exists_cons_of_mem_head? hw
  cases us with
  | nil => exact arg_positional (not_named_of_bindsLate hlate) hrun
  | cons b us => exact arg_positional (not_named_of_bindsLate hlate) hrun

theorem readsItem_arg {name : String} {value : Expr} (h : Readable full value) (n depth : Nat) :
    ReadsItem full .rparen ((rulesAt n).arg ⟨depth, 0⟩) (Arg.relocate fun _ => ⟨0, 0⟩) n
      (Arg.spell full (.mk name value)) (.mk name value) := by
  rw [Arg.spell]
  by_cases hname : name = ""
  · rw [if_pos hname, nil_append, hname]
    exact readsItem_positional h n depth
  · rw [if_neg hname]
    have hread := h.readsItem (.inr rfl) n depth
    refine ⟨⟨_, rfl, ?_⟩, fun ts t tail past hts hn ht hc => ?_⟩
    · unfold Word.label
      split <;> simp
    · obtain ⟨label, ts, rfl, hlabel, hrest⟩ := map_eq_cons_iff.1 hts
      obtain ⟨bind, ts, rfl, hbind, hvalue⟩ := map_eq_cons_iff.1 hrest
      obtain ⟨value', he, hrun⟩ := hread.reads ts t tail (bind :: label :: past) hvalue
        (by simp at hn; omega) ht (Calm.drop [label, bind] hc)
      have hlex : label.lexeme = name := congrArg Prod.snd hlabel
      refine ⟨.mk name value', congrArg (Arg.mk name) he, ?_⟩
      have hop : bind.isOp "=" = true :=
        Token.isOp_iff.2 ⟨congrArg Prod.fst hbind, congrArg Prod.snd hbind⟩
      have hnamed := arg_named (r := rulesAt n) (kind_of_label hlabel) hop hrun
      rw [hlex] at hnamed
      simpa using hnamed

/-- The arguments of a call are read back. -/
theorem args_spell {args : List Arg} (h : ∀ a ∈ args, Readable full a.value)
    {us : List Token} (hus : us.map Token.word = Word.grouped (Word.listed (spellArgs full args)))
    (hc : Calm full us rest) {n : Nat} (hn : us.length ≤ n) (depth : Nat) (past : List Token) :
    ∃ args', relocateArgs (fun _ => ⟨0, 0⟩) args' = relocateArgs (fun _ => ⟨0, 0⟩) args ∧
      (rulesAt n).args ⟨depth, 0⟩ ⟨past, us ++ rest⟩ = .ok args' ⟨us.reverse ++ past, rest⟩ := by
  obtain ⟨lp, us, rp, rfl, hlp, hrp, hlist⟩ := exists_of_grouped hus
  rw [spellArgs_eq_map] at hlist
  have hitems (a : Arg) (ha : a ∈ args) : ReadsItem full .rparen ((rulesAt n).arg ⟨depth, 0⟩)
      (Arg.relocate fun _ => ⟨0, 0⟩) n (a.spell full) a := by
    obtain ⟨name, value⟩ := a
    exact readsItem_arg (h _ ha) n depth
  obtain ⟨args', hmap, hrun⟩ := items_listed hrp (by simp) rest args hitems n us (lp :: past) hlist
    (by simp at hn; omega) (by simp at hn; omega) (Calm.drop [lp] hc.take)
  refine ⟨args', by rw [relocateArgs_eq_map, relocateArgs_eq_map, hmap], ?_⟩
  have hcursor : lp :: us ++ [rp] ++ rest = lp :: (us ++ rp :: rest) := by simp
  rw [hcursor, Rules.args, bind_ok (expect_ok hlp ..),
    bind_ok (show items .rparen ((rulesAt n).arg ⟨depth, 0⟩) (rulesAt n).fuel _ = _ from hrun),
    bind_ok (expect_ok hrp ..)]
  simp [pure, EStateM.pure]

theorem begins_call {pos : Pos} {callee : Expr} {args : List Arg} (h : Readable full callee)
    (hna : callee.isNa = false) (hargs : ∀ a ∈ args, Readable full a.value)
    (hts : ts.map Token.word = (Expr.call pos 0 callee args []).spell full)
    (hc : Calm full ts rest) : Begins 8 (.call pos 0 callee args []) ts rest := by
  rw [Expr.spell, if_pos isEmpty_nil, List.append_nil] at hts
  obtain ⟨ts, us, rfl, hcallee, hus⟩ := map_eq_append_iff.1 hts
  have hread := h.operand (Nat.le_refl 8) hcallee hc.take (fun h8 => absurd h8 (by simp)) fun hn => by
    rw [hna] at hn
    cases hn
  have hne : us ≠ [] := by
    rintro rfl
    cases hus
  refine hread.suffix hne fun n m depth past callee' hn he => ?_
  obtain ⟨args', hargs', hrun⟩ := args_spell hargs hus (Calm.drop ts hc) hn depth past
  refine ⟨.call callee'.pos 0 callee' args' [], ?_, ?_⟩
  · simp only [Expr.erase, Expr.relocate] at he ⊢
    rw [he, hargs']
  · obtain ⟨lp, us, rp, rfl, hlp, -⟩ := exists_of_grouped hus
    rw [suffixes, cons_append, cons_append, bind_ok (peek_ok ..), hlp]
    exact bind_ok hrun

/-- The type arguments are spelled as type names between angle brackets. -/
def SpellsTypes (types : List String) : Prop :=
  ∃ names : List TypeName, names ≠ [] ∧ types = typeTexts names ∧
    Piece.words (angled types).toList = Word.angled (Word.listed (spellTypes names))

theorem suffixes_types {r : Rules} {d : Nesting} {e : Expr} (he : isCallee e = true) {lt : Token}
    (hlt : lt.isOp "<" = true) {past tail : List Token} {types : List String} {c : Cursor}
    (h : callTypeArgs r.fuel ⟨past, lt :: tail⟩ = .ok types c) (m : Nat) :
    r.suffixes d (m + 1) e ⟨past, lt :: tail⟩ =
      (r.args d >>= fun args => r.suffixes d m (.call e.pos 0 e args types)) c := by
  have hkind := (Token.isOp_iff.1 hlt).1
  rw [suffixes_of_kind_ne r d (by simp [hkind]) (by simp [hkind]) (by simp [hkind]),
    if_pos (by simp [hlt, he]), bind_ok (attempt_ok h)]

theorem begins_genericCall {pos : Pos} {callee : Expr} {args : List Arg} {types : List String}
    (h : Readable full callee) (hna : callee.isNa = false) (hcallee : isCallee callee = true)
    (htypes : SpellsTypes types) (hargs : ∀ a ∈ args, Readable full a.value)
    (hts : ts.map Token.word = (Expr.call pos 0 callee args types).spell full)
    (hc : Calm full ts rest) : Begins 8 (.call pos 0 callee args types) ts rest := by
  obtain ⟨names, hne, rfl, hwords⟩ := htypes
  have hnil : (typeTexts names).isEmpty = false := by
    cases names with
    | nil => exact absurd rfl hne
    | cons name names => rfl
  rw [Expr.spell, hnil, if_neg (by simp), hwords, append_assoc] at hts
  obtain ⟨ts, us, rfl, hfirst, hus⟩ := map_eq_append_iff.1 hts
  obtain ⟨us, vs, rfl, htypes, hvs⟩ := map_eq_append_iff.1 hus
  have hread := h.operand (Nat.le_refl 8) hfirst hc.take (fun h8 => absurd h8 (by simp)) fun hn => by
    rw [hna] at hn
    cases hn
  have hlt := exists_of_angled htypes
  refine hread.suffix (by obtain ⟨_, _, _, rfl, -⟩ := hlt; simp)
    fun n m depth past callee' hn he => ?_
  rw [length_append] at hn
  obtain ⟨args', hargs', hrun⟩ := args_spell hargs hvs (Calm.drop us (Calm.drop ts hc)) (n := n)
    (by omega) depth (us.reverse ++ past)
  refine ⟨.call callee'.pos 0 callee' args' (typeTexts names), ?_, ?_⟩
  · simp only [Expr.erase, Expr.relocate] at he ⊢
    rw [he, hargs']
  · have hcallee' : isCallee callee' = true := by
      rw [← isCallee_relocate (fun _ => ⟨0, 0⟩), ← Expr.erase, he, Expr.erase, isCallee_relocate,
        hcallee]
    obtain ⟨lp, vs, rp, rfl, hlp, -⟩ := exists_of_grouped hvs
    have hread := callTypeArgs_spell hne htypes (n := n) (by omega) hlp past (vs ++ [rp] ++ rest)
    obtain ⟨lt, us, gt, rfl, hlt, -⟩ := hlt
    have hstep := suffixes_types (r := rulesAt n) (d := ⟨depth, 0⟩) hcallee' hlt hread m
    simpa using hstep.trans (bind_ok hrun)

/-! ### Operators -/

theorem begins_unary {pos : Pos} {op : UnaryOp} (hop : op ∈ UnaryOp.known) {operand : Expr}
    (h : Readable full operand) (hts : ts.map Token.word = (Expr.unary pos op operand).spell full)
    (hc : Calm full ts rest) (hf : StopsAt 8 rest) : Begins 7 (.unary pos op operand) ts rest := by
  rw [Expr.spell] at hts
  obtain ⟨t, us, rfl, ht, hus⟩ := map_eq_cons_iff.1 hts
  have hread := h.operand (by simp) hus (Calm.drop [t] hc) (fun _ => hf) fun _ => hf.kind_ne
  have hlex : t.lexeme = op.spelling := congrArg Prod.snd ht
  have hisOp : ["not", "-", "+"].any t.isOp = true := by
    have hmem : op.spelling ∈ ["not", "-", "+"] := by
      have hall : ∀ o ∈ UnaryOp.known, o.spelling ∈ ["not", "-", "+"] := by decide
      exact hall op hop
    refine any_eq_true.2 ⟨op.spelling, hmem, Token.isOp_iff.2 ⟨congrArg Prod.fst ht, hlex⟩⟩
  have hof : UnaryOp.ofSpelling t.lexeme = op := by
    have hall : ∀ o ∈ UnaryOp.known, UnaryOp.ofSpelling o.spelling = o := by decide
    rw [hlex, hall op hop]
  intro n m depth past hn hm
  rw [length_cons] at hn hm
  obtain ⟨m, rfl⟩ : ∃ j, m = j + 1 := ⟨m - 1, by omega⟩
  obtain ⟨_, e', -, he, hrun⟩ := hread n m (depth + 1) (t :: past) (by omega) (by omega)
  change (rulesAt n).unary m ⟨depth + 1, 0⟩ _ = .ok e' _ at hrun
  refine ⟨n, .unary t.pos op e', by omega, ?_, ?_⟩
  · simp only [Expr.erase, Expr.relocate] at he ⊢
    rw [he]
  · change (rulesAt n).unary (m + 1) ⟨depth, 0⟩ ⟨past, t :: (us ++ rest)⟩ = _
    rw [unary, bind_ok (peek_ok ..), if_pos hisOp, bind_ok (enter_unlimited depth _),
      bind_ok (advance_ok ..), bind_ok hrun, hof]
    simp [pure, EStateM.pure, goOn]

/-- After a name, a `<` between two operands does not start type arguments. -/
theorem noTypeArgs_right {right : Expr} (h : Readable full right) {lt : Token} {us : List Token}
    {demand : Nat} (hlt : lt.word = Word.op "<")
    (hus : us.map Token.word = right.operand full demand (right.spell full))
    (hc : Calm full (lt :: us) rest)
    (hclosed : full = true → ∀ t ∈ rest.head?, t.kind = .rparen) : NoTypeArgs (lt :: (us ++ rest)) := by
  rcases hc with rfl | ⟨mid, nl, tail, rfl, hn, hchain⟩
  · refine noTypeArgs_of_holdsOpen ?_
    rw [map_cons, hlt, Word.holdsOpen_cons_lt, map_append, hus, Expr.operand, if_pos rfl]
    have hrest : Word.holdsOpen 1 (rest.map Token.word) = true := by
      cases rest with
      | nil => rfl
      | cons t tail => rw [map_cons, Token.word, hclosed rfl t rfl]; rfl
    split
    · rfl
    · next hp => exact h.holdsOpen (Nat.le_of_not_lt hp) _ hrest
  · have hno := noTypeArgs_of_isChain hn hchain tail
    simpa using hno

theorem chain_step {next : Parser Expr} {ops : List BinaryOp} {t : Token} {past tail : List Token}
    {right : Expr} {c : Cursor} (hops : ops.any (fun op => t.isOp op.spelling) = true)
    (h : next ⟨t :: past, tail⟩ = .ok right c) (left : Expr) (m : Nat) :
    chain next ops (m + 1) left ⟨past, t :: tail⟩ =
      chain next ops m (.binary t.pos (.ofSpelling t.lexeme) left right) c := by
  rw [chain, bind_ok (peek_ok ..), if_pos hops, bind_ok (advance_ok ..), bind_ok h]

theorem begins_binary {pos : Pos} {op : BinaryOp} (hop : op ∈ BinaryOp.known) {left right : Expr}
    (hl : Readable full left) (hr : Readable full right)
    (hts : ts.map Token.word = (Expr.binary pos op left right).spell full)
    (hc : Calm full ts rest) (hclosed : full = true → ∀ t ∈ rest.head?, t.kind = .rparen)
    (hf : StopsAt (op.level + 1) rest) : Begins op.level (.binary pos op left right) ts rest := by
  rw [Expr.spell] at hts
  obtain ⟨ts, us, rfl, hleft, hus⟩ := map_eq_append_iff.1 hts
  obtain ⟨t, us, rfl, ht, hright⟩ := map_eq_cons_iff.1 hus
  obtain ⟨k, hk, hk6⟩ : ∃ k, op.level = k + 1 ∧ k < 6 := by
    have hall : ∀ o ∈ BinaryOp.known, 0 < o.level ∧ o.level < 7 := by decide
    exact ⟨op.level - 1, by have := hall op hop; omega, by have := hall op hop; omega⟩
  rw [hk] at hleft hright hf ⊢
  have hlex : t.lexeme = op.spelling := congrArg Prod.snd ht
  have hof : BinaryOp.ofSpelling t.lexeme = op := by
    have hall : ∀ o ∈ BinaryOp.known, BinaryOp.ofSpelling o.spelling = o := by decide
    rw [hlex, hall op hop]
  have hfollow : StopsAt (k + 2) (t :: (us ++ rest)) := by
    refine stopsAt_op ht (fun o ho hko hs => ?_) (by simp) fun hlt => ?_
    · have hall : ∀ o ∈ BinaryOp.known, ∀ p ∈ BinaryOp.known, o.spelling = p.spelling → o = p := by
        decide
      rw [hall o ho op hop hs, hk] at hko
      omega
    · exact noTypeArgs_right hr (hlt ▸ ht) hright (Calm.drop ts hc) hclosed
  have hread : Begins (k + 1) left ts (t :: (us ++ rest)) :=
    hl.operand (by omega) hleft hc.take (fun _ => hfollow) fun _ => hfollow.kind_ne
  have hnext : Takes (k + 2) right us rest :=
    hr.takes (by omega) hright (Calm.drop [t] (Calm.drop ts hc)) hf
  intro n m depth past hn hm
  rw [length_append, length_cons] at hn hm
  obtain ⟨j, left', hj, hel, hrunl⟩ := hread n m depth past (by omega) (by omega)
  obtain ⟨right', her, hrunr⟩ := hnext n n depth (t :: (ts.reverse ++ past)) (by omega) (by omega)
  obtain ⟨j, rfl⟩ : ∃ i, j = i + 1 := ⟨j - 1, by omega⟩
  refine ⟨j, .binary t.pos op left' right', by simp; omega, ?_, ?_⟩
  · simp only [Expr.erase, Expr.relocate] at hel her ⊢
    rw [hel, her]
  · have hany : (opsAt (k + 1)).any (fun o => t.isOp o.spelling) = true := by
      refine any_eq_true.2 ⟨op, mem_filter.2 ⟨hop, by simp [hk]⟩, ?_⟩
      exact Token.isOp_iff.2 ⟨congrArg Prod.fst ht, hlex⟩
    have hstep := chain_step hany hrunr left' j
    rw [hof] at hstep
    have hlist : (ts ++ t :: us).reverse ++ past = us.reverse ++ t :: (ts.reverse ++ past) := by simp
    rw [append_assoc, cons_append, hrunl, goOn_eq_chain _ _ hk6, goOn_eq_chain _ _ hk6,
      hlist]
    exact hstep

theorem begins_ternary {pos : Pos} {cond yes no : Expr} (hcond : Readable full cond)
    (hyes : Readable full yes) (hno : Readable full no)
    (hts : ts.map Token.word = (Expr.ternary pos cond yes no).spell full) (hc : Calm full ts rest)
    (hf : StopsAt 0 rest) : Begins 0 (.ternary pos cond yes no) ts rest := by
  rw [Expr.spell, append_assoc, cons_append] at hts
  obtain ⟨ts, us, rfl, hfirst, hus⟩ := map_eq_append_iff.1 hts
  obtain ⟨mark, us, rfl, hmark, hus⟩ := map_eq_cons_iff.1 hus
  obtain ⟨us, vs, rfl, hsecond, hvs⟩ := map_eq_append_iff.1 hus
  obtain ⟨colon, vs, rfl, hcolon, hthird⟩ := map_eq_cons_iff.1 hvs
  have hkind : colon.kind = .colon := congrArg Prod.fst hcolon
  have hisOp : mark.isOp "?" = true :=
    Token.isOp_iff.2 ⟨congrArg Prod.fst hmark, congrArg Prod.snd hmark⟩
  have hfollow : StopsAt 1 (mark :: (us ++ colon :: vs ++ rest)) := by
    refine stopsAt_op hmark (fun o ho _ => ?_) (by simp) (by simp)
    have hall : ∀ o ∈ BinaryOp.known, o.spelling ≠ "?" := by decide
    exact hall o ho
  have htakes₁ := hcond.takes (by simp) hfirst hc.take hfollow
  have hc₂ := Calm.drop [mark] (Calm.drop ts hc)
  have htakes₂ := hyes.takes (by simp) hsecond hc₂.take
    (stopsAt_of_endsOperand 0 (by rw [hkind]; rfl) (vs ++ rest))
  have htakes₃ := hno.takes (by simp) hthird (Calm.drop [colon] (Calm.drop us hc₂)) hf
  intro n m depth past hn _
  simp only [length_append, length_cons] at hn
  obtain ⟨cond', he₁, hrun₁⟩ := htakes₁ n n depth past (by omega) (by omega)
  obtain ⟨yes', he₂, hrun₂⟩ := htakes₂.expr (n := n) (by omega) depth (mark :: (ts.reverse ++ past))
  obtain ⟨no', he₃, hrun₃⟩ := htakes₃.expr (n := n) (by omega) depth
    (colon :: (us.reverse ++ mark :: (ts.reverse ++ past)))
  refine ⟨n, .ternary mark.pos cond' yes' no', by omega, ?_, ?_⟩
  · simp only [Expr.erase, Expr.relocate] at he₁ he₂ he₃ ⊢
    rw [he₁, he₂, he₃]
  · change (rulesAt n).binary ⟨depth, 0⟩ levels _ = .ok cond' _ at hrun₁
    change (rulesAt n).ternary ⟨depth, 0⟩ _ = _
    rw [ternary, append_assoc, bind_ok hrun₁]
    simp only [cons_append, append_assoc] at hrun₂ ⊢
    rw [bind_ok (peek_ok ..), if_pos hisOp, bind_ok (advance_ok ..), expr_rulesAt, bind_ok hrun₂,
      bind_ok (expect_ok hkind ..), bind_ok hrun₃]
    simp [pure, EStateM.pure, goOn]

/-! ### Whole expressions -/

section Whole

variable {L : Vocabulary}

theorem SpellsTypes.bindsLate {types : List String} (h : SpellsTypes types) :
    Word.bindsLate (Piece.words (angled types).toList) = true := by
  obtain ⟨names, -, -, hwords⟩ := h
  rw [hwords]
  refine Word.bindsLate_of_forall fun w hw => ?_
  rintro rfl
  rcases Word.inTypes_of_mem_angled (Word.inTypes_of_mem_spellTypes names) hw with h | h | h
  · rcases h with h | h | h <;> cases h
  · exact absurd h (by decide)
  · exact absurd h (by decide)

theorem SpellsTypes.holdsOpen {types : List String} (h : SpellsTypes types) (ws : List Word) :
    Word.holdsOpen 1 (Piece.words (angled types).toList ++ ws) = Word.holdsOpen 1 ws := by
  obtain ⟨names, -, -, hwords⟩ := h
  rw [hwords, Word.angled, append_assoc, cons_append, Word.holdsOpen_cons_lt,
    Word.holdsOpen_listed_spellTypes 1, singleton_append, Word.holdsOpen_cons_gt]
  rfl

theorem holdsOpen_operand {ws vs : List Word} (h : 8 ≤ e.prec → Word.holdsOpen 1 (ws ++ vs) = true) :
    Word.holdsOpen 1 (e.operand full 8 ws ++ vs) = true := by
  rw [Expr.operand_tight]
  split
  · rfl
  · next hp => exact h (Nat.le_of_not_lt hp)

/-- An angle bracket in front of a tight expression is still open after it. -/
theorem holdsOpen_spell (full : Bool) (hL : ∀ types, L.types types → SpellsTypes types) :
    (e : Expr) → e.Over L → 8 ≤ e.prec → ∀ ws, Word.holdsOpen 1 ws = true →
    Word.holdsOpen 1 (e.spell full ++ ws) = true
  | .number .., _, _, _, _ | .string .., _, _, _, _ | .bool .., _, _, _, _ | .na _, _, _, _, _
  | .color .., _, _, _, _ | .array .., _, _, _, _ => by
    rw [Expr.spell]
    rfl
  | .name .., _, _, ws, hws => by
    rw [Expr.spell, singleton_append, Word.holdsOpen_cons_inPath (.inl rfl)]
    exact hws
  | .member _ object property, h, _, ws, hws => by
    rw [Expr.spell, append_assoc]
    refine holdsOpen_operand fun hp => holdsOpen_spell full hL object h.1 hp _ ?_
    rw [cons_append, Word.holdsOpen_cons_inPath (.inr (.inl rfl)), singleton_append,
      Word.label]
    split
    · rfl
    · rw [Word.holdsOpen_cons_inPath (.inl rfl)]
      exact hws
  | .index _ object _, h, _, ws, _ => by
    rw [Expr.spell, append_assoc, append_assoc]
    exact holdsOpen_operand fun hp => holdsOpen_spell full hL object h.1 hp _ rfl
  | .call _ _ callee args types, h, _, ws, _ => by
    rw [Expr.spell, append_assoc, append_assoc]
    refine holdsOpen_operand fun hp => holdsOpen_spell full hL callee h.2.1 hp _ ?_
    rcases h.2.2.2 with rfl | ⟨-, htypes⟩
    · rfl
    · split
      · rfl
      · rw [(hL types htypes).holdsOpen]
        rfl
  | .binary _ op _ _, _, hp, _, _ => absurd hp (Nat.not_le.2 (Nat.lt_succ_of_lt op.level_lt))
  | .unary .., _, hp, _, _ | .ternary .., _, hp, _, _ => absurd hp (by simp [Expr.prec])

/-- How the words are read is what makes an expression without blocks readable. -/
theorem readable_of_begins (hL : ∀ types, L.types types → SpellsTypes types) (h : e.Over L)
    (hbegins : ∀ ts rest, ts.map Token.word = e.spell full → Calm full ts rest →
      (full = true → e.prec < 8 → ∀ t ∈ rest.head?, t.kind = .rparen) →
      (e.prec < 8 → StopsAt (due e.prec) rest) →
      (e.isNa = true → ∀ t ∈ rest.head?, t.kind ≠ .lparen) → Begins e.prec e ts rest) :
    Readable full e where
  opens := Expr.opens_spell full e h
  bindsLate := Expr.bindsLate_spell full (fun types ht => (hL types ht).bindsLate) e h
  holdsOpen := holdsOpen_spell full hL e h
  begins := hbegins

mutual

/-- **The words of every expression without blocks are read back.** -/
theorem readable_spell (full : Bool) (hL : ∀ types, L.types types → SpellsTypes types) :
    (e : Expr) → e.Over L → Readable full e
  | .number pos _, h => readable_of_begins hL h fun _ _ hts _ _ _ _ => by
    rw [Expr.spell] at hts
    exact begins_literal .number (by simp [literals]) pos hts
  | .string pos _, h => readable_of_begins hL h fun _ _ hts _ _ _ _ => by
    rw [Expr.spell] at hts
    exact begins_literal .string (by simp [literals]) pos hts
  | .color pos _, h => readable_of_begins hL h fun _ _ hts _ _ _ _ => by
    rw [Expr.spell] at hts
    exact begins_literal .color (by simp [literals]) pos hts
  | .name pos _, h => readable_of_begins hL h fun _ _ hts _ _ _ _ => by
    rw [Expr.spell] at hts
    exact begins_literal .name (by simp [literals]) pos hts
  | .bool pos value, h => readable_of_begins hL h fun _ _ hts _ _ _ _ => by
    rw [Expr.spell] at hts
    cases value <;>
      exact begins_literal (fun pos text => .bool pos (text = "true")) (by simp [literals]) pos hts
  | .na _, h => readable_of_begins hL h fun _ _ hts _ _ _ hna => by
    rw [Expr.spell] at hts
    exact begins_na hts (hna rfl)
  | .member _ object _, h => readable_of_begins hL h fun _ _ hts hc _ _ _ =>
    begins_member (readable_spell full hL object h.1) hts hc
  | .index _ object offset, h => readable_of_begins hL h fun _ _ hts hc _ _ _ =>
    begins_index (readable_spell full hL object h.1) (readable_spell full hL offset h.2) hts hc
  | .call _ key callee args types, h => readable_of_begins hL h fun _ _ hts hc _ _ _ => by
    obtain ⟨⟨rfl, hna⟩, hcallee, hargs, htypes⟩ := h
    have hr := readable_spell full hL callee hcallee
    have hrs := readable_spellArgs full hL args hargs
    rcases htypes with rfl | ⟨his, htypes⟩
    · exact begins_call hr hna hrs hts hc
    · exact begins_genericCall hr hna his (hL types htypes) hrs hts hc
  | .binary _ op left right, h => readable_of_begins hL h fun _ _ hts hc hclosed hf _ => by
    have hlevel : op.level < 8 := Nat.lt_succ_of_lt op.level_lt
    have hpos : op.level ≠ 0 := by
      have hall : ∀ o ∈ BinaryOp.known, o.level ≠ 0 := by decide
      exact hall op h.1
    have hfollows := hf hlevel
    rw [Expr.prec, due, if_neg hpos] at hfollows
    exact begins_binary h.1 (readable_spell full hL left h.2.1) (readable_spell full hL right h.2.2)
      hts hc (fun hfull => hclosed hfull hlevel) hfollows
  | .unary _ op operand, h => readable_of_begins hL h fun _ _ hts hc _ hf _ =>
    begins_unary h.1 (readable_spell full hL operand h.2) hts hc (hf (by simp [Expr.prec]))
  | .ternary _ cond yes no, h => readable_of_begins hL h fun _ _ hts hc _ hf _ =>
    begins_ternary (readable_spell full hL cond h.1) (readable_spell full hL yes h.2.1)
      (readable_spell full hL no h.2.2) hts hc (hf (by simp [Expr.prec]))
  | .array _ elements, h => readable_of_begins hL h fun _ _ hts hc _ _ _ =>
    begins_array (readable_spellExprs full hL elements h) hts hc

theorem readable_spellExprs (full : Bool) (hL : ∀ types, L.types types → SpellsTypes types) :
    (es : List Expr) → ExprsOver L es → ∀ e ∈ es, Readable full e
  | [], _, _, he => by cases he
  | e :: es, h, e', he => by
    rcases mem_cons.1 he with heq | he
    · rw [heq]
      exact readable_spell full hL e h.1
    · exact readable_spellExprs full hL es h.2 e' he

theorem readable_spellArgs (full : Bool) (hL : ∀ types, L.types types → SpellsTypes types) :
    (args : List Arg) → ArgsOver L args → ∀ a ∈ args, Readable full a.value
  | [], _, _, ha => by cases ha
  | .mk name value :: args, h, a, ha => by
    rcases mem_cons.1 ha with heq | ha
    · rw [heq]
      exact readable_spell full hL value h.2.1
    · exact readable_spellArgs full hL args h.2.2 a ha

end

/-- An expression over a vocabulary is read back where it ends at any level. -/
theorem takes_spell (hL : ∀ types, L.types types → SpellsTypes types) (he : e.Over L)
    (hts : ts.map Token.word = e.operand full 0 (e.spell full)) (hc : Calm full ts rest)
    (hf : StopsAt 0 rest) : Takes 0 e ts rest :=
  (readable_spell full hL e he).takes (by simp) hts hc hf

end Whole

/-- **The grammar of expressions inverts spelling.** The words of an expression without blocks and
type arguments, spelled with only the parentheses that precedence and associativity demand, are
read back as the same expression up to positions, and reading stops at the line end after them, if
no `>` stands right before a parenthesis. Bounds past the number of tokens, as a program takes them,
all give this expression. -/
theorem exprAt_spell {e : Expr} (he : e.Over .untyped) {ts : List Token}
    (hts : ts.map Token.word = e.spell false) (hapart : ts.IsChain Token.Apart) {nl : Token}
    (hnl : nl.kind = .newline) (rest past : List Token) (depth : Nat) :
    ∃ e', e'.erase = e.erase ∧ ∀ fuel, (ts ++ nl :: rest).length < fuel →
      Rule.exprAt fuel ⟨⟨past, ts ++ nl :: rest⟩, depth, 0⟩ =
        .ok e' ⟨⟨ts.reverse ++ past, nl :: rest⟩, depth, 0⟩ := by
  have hc : Calm false ts (nl :: rest) :=
    .inr ⟨[], nl, rest, rfl, hnl, by rw [List.append_nil]; exact hapart⟩
  have hf : StopsAt 0 (nl :: rest) := stopsAt_of_endsOperand 0 (by rw [hnl]; rfl) rest
  have hwhole : ts.map Token.word = e.operand false 0 (e.spell false) := by
    rw [hts, Expr.operand, if_neg (by simp)]
  have htakes := takes_spell (fun _ h => absurd h id) he hwhole hc hf
  have hlt : ts.length < (ts ++ nl :: rest).length + 1 := by
    rw [length_append]
    omega
  obtain ⟨e', he', hread⟩ := htakes.expr hlt depth past
  refine ⟨e', he', fun fuel hfuel => ?_⟩
  have hat := (Rule.mirrors_free hfuel (Nat.le_refl _)).expr ⟨past, ts ++ nl :: rest⟩
    (Nat.lt_succ_self _)
  exact (hat.agrees ⟨depth, 0⟩).trans (congrArg (Rule.outcome ⟨depth, 0⟩) hread)

/-- Every level is met in `a < b + 2 * -c[1] and not (x ? y : z) == d.f(p, k = [na, 1])`, and only
the choice under `not` needs its parentheses. -/
theorem exprAt_spell_levels :
    let pos : Pos := ⟨1, 1⟩
    let less : Expr := .binary pos .lt (.name pos "a") (.binary pos .add (.name pos "b")
      (.binary pos .mul (.number pos "2")
        (.unary pos .neg (.index pos (.name pos "c") (.number pos "1")))))
    let choice : Expr := .ternary pos (.name pos "x") (.name pos "y") (.name pos "z")
    let call : Expr := .call pos 0 (.member pos (.name pos "d") "f")
      [.mk "" (.name pos "p"), .mk "k" (.array pos [.na pos, .number pos "1"])] []
    let e : Expr := .binary pos .and less (.binary pos .eq (.unary pos .not choice) call)
    let ts := (e.spell false).map fun w => (⟨w.1, w.2, 1, 1, 0, 0⟩ : Token)
    let nl : Token := ⟨.newline, "\n", 1, 1, 0, 0⟩
    ts.length = 35 ∧ ∃ e', e'.erase = e.erase ∧
      Rule.exprAt 37 ⟨⟨[], ts ++ [nl]⟩, 0, 0⟩ = .ok e' ⟨⟨ts.reverse ++ [], [nl]⟩, 0, 0⟩ := by
  intro pos less choice call e ts nl
  have hlength : ts.length = 35 := by decide
  have hover : e.Over .untyped := by
    simp [e, less, choice, call, Expr.Over, ArgsOver, ExprsOver, Vocabulary.untyped, Expr.isNa,
      BinaryOp.known, UnaryOp.known]
  have hwords : ts.map Token.word = e.spell false := by decide
  have hapart : ts.IsChain Token.Apart := by decide
  have hnl : nl.kind = .newline := rfl
  obtain ⟨e', he', hread⟩ := exprAt_spell hover hwords hapart hnl [] [] 0
  exact ⟨hlength, e', he', hread 37 (by rw [length_append, hlength]; decide)⟩

end Pine.Grammar
