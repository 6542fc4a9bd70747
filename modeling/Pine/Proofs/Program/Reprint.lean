import Pine.Proofs.Grammar.Heads
import Pine.Proofs.Program.Concat
import Pine.Proofs.Tree.Printed

/-!
# Reading printed expressions

The text of an expression is a line of its own: it is cut into the words of the expression, and the
layout adds the line end and the end of input. As a statement it is the expression, since it starts
with no keyword, no arrow follows, and every `=` names an argument, so that no head of a declaration
fits.

## Main results

* `Token.lex_of_cuts`: the tokens of a text that is a line of its own.
* `Expr.arrow_notMem_spell`: the words of an expression hold no arrow.
* `Grammar.stmtAt_words`: the words of an expression are read as a statement.
* `Program.parse_lex_text`: printing an expression and reading it back gives the same expression.
-/

namespace Pine

open Piece List

/-! ### A line of its own -/

namespace Layout

/-- Tokens and blanks within a line become their words. -/
theorem run_inline : (ps : List Piece) → (∀ p ∈ ps, p.isInline = true) → (s : Layout) →
    ∃ u : Layout, s.run 0 ps = (u.finish, none) ∧ u.widths = s.widths ∧
      u.tokens.toList.map Token.word = s.tokens.toList.map Token.word ++ ps.filterMap word?
  | [], _, s => ⟨s, rfl, rfl, by simp⟩
  | p :: ps, h, s => by
    have ih := run_inline ps fun q hq => h q (mem_cons_of_mem p hq)
    obtain ⟨form, text⟩ := p
    have hinline := h _ (mem_cons_self ..)
    cases form with
    | token kind lexeme =>
      obtain ⟨u, hrun, hwidths, hwords⟩ := ih
        { s.emit kind lexeme (s.place.after text) with nesting := nest kind s.nesting }
      refine ⟨u, hrun, hwidths, ?_⟩
      simpa [emit, Token.word, word?] using hwords
    | blank =>
      obtain ⟨u, hrun, hwidths, hwords⟩ := ih (s.skip text)
      exact ⟨u, hrun, hwidths, hwords⟩
    | lineBreak | lineComment | blockComment | fault => cases hinline

/-- After a token that is no line end, the end of input stands behind a line end. -/
theorem toList_finish_of_back? {s : Layout} {last : Token} (h : s.tokens.back? = some last)
    (hk : last.kind ≠ .newline) (hw : s.widths = []) : ∃ nl : Token, nl.kind = .newline ∧
      s.finish.tokens.toList = s.tokens.toList ++ [nl, eofAt s.place] := by
  rw [toList_finish]
  unfold endLine
  rw [h]
  dsimp only
  rw [if_neg hk]
  refine ⟨⟨.newline, "\n", s.place.line, s.place.column, s.place.offset - 1, s.place.offset⟩, rfl,
    ?_⟩
  simp [hw]

end Layout

/-- **A text that is a line of its own has the tokens of its words**, a line end and the end of
input. -/
theorem Token.lex_of_cuts {cs : List Char} {ws : List Word} (h : Cuts cs ws []) (hws : ws ≠ [])
    (hb : Avoids Source.isBlank cs) (hm : cs.head? ≠ some Source.mark) :
    (Token.lex 0 cs).error = none ∧ ∃ ts nl eof, (Token.lex 0 cs).tokens = ts ++ [nl, eof] ∧
      ts.map Token.word = ws ∧ (∀ t ∈ ts, t.kind.isText = true) ∧ nl.kind = .newline ∧
      eof.kind = .eof := by
  obtain ⟨hr, ps, hs, hw, hi⟩ := h
  rw [split, List.append_nil, List.append_nil] at hs
  obtain ⟨u, hrun, hwidths, hwords⟩ := Layout.run_inline ps hi {}
  have hall : Layout.runAll 0 ps = (u.finish, none) := by
    cases ps with
    | nil => exact hrun
    | cons p ps =>
      rw [Layout.runAll, if_neg]
      · exact hrun
      · intro hblank
        cases cs with
        | nil =>
          rw [split] at hs
          cases hs
        | cons c cs =>
          rw [split, List.cons.injEq] at hs
          have hc := isBlank_of_classify (hs.1 ▸ hblank)
          rw [hb c rfl] at hc
          cases hc
  have hlex : Token.lex 0 cs = ⟨u.finish.tokens.toList, none⟩ := by
    rw [Token.lex, Source.normalize_eq_self hm hr, hs, hall]
  have hwords' : u.tokens.toList.map Token.word = ws := by simpa [hw] using hwords
  have htext : ∀ t ∈ u.tokens.toList, t.kind.isText = true := by
    intro t ht
    have hmem : t.word ∈ ps.filterMap word? := hw ▸ hwords' ▸ mem_map_of_mem ht
    obtain ⟨⟨form, text⟩, hp, hform⟩ := mem_filterMap.1 hmem
    cases form with
    | token kind lexeme =>
      have hkind : kind = t.kind := congrArg Prod.fst (Option.some.inj hform)
      exact hkind ▸ isText_of_mem_split (hs ▸ hp) _ _ rfl
    | _ => cases hform
  obtain ⟨last, hlast⟩ : ∃ last, u.tokens.toList.getLast? = some last := by
    refine Option.ne_none_iff_exists'.1 fun hnone => hws ?_
    rw [← hwords', getLast?_eq_none_iff.1 hnone, map_nil]
  have hkind : last.kind ≠ .newline := by
    intro hnl
    have htext := htext last (mem_of_getLast? hlast)
    rw [hnl] at htext
    cases htext
  rw [Array.getLast?_toList] at hlast
  obtain ⟨nl, hnl, hfinish⟩ := Layout.toList_finish_of_back? hlast hkind hwidths
  rw [hlex]
  exact ⟨rfl, u.tokens.toList, nl, Layout.eofAt u.place, hfinish, hwords', htext, hnl, rfl⟩

/-! ### Words without an arrow -/

namespace Word

theorem arrow_notMem_operand {e : Expr} {ws : List Word} (h : op "=>" ∉ ws) (full : Bool)
    (demand : Nat) : op "=>" ∉ e.operand full demand ws := by
  unfold Expr.operand
  generalize (if full then 8 else demand) = k
  split
  · simpa [grouped, op] using h
  · exact h

theorem arrow_notMem_listed : (parts : List (List Word)) → (∀ ws ∈ parts, op "=>" ∉ ws) →
    op "=>" ∉ listed parts
  | [], _ => by simp [listed]
  | ws :: parts, h => by
    have ih := arrow_notMem_listed parts fun vs hvs => h vs (mem_cons_of_mem ws hvs)
    rw [listed_cons, mem_append, not_or]
    refine ⟨h ws (mem_cons_self ..), ?_⟩
    split
    · simp
    · simpa [op] using ih

theorem arrow_ne_label (s : String) : op "=>" ≠ label s := (label_ne_op s "=>").symm

theorem arrow_ne {kind : Token.Kind} (h : kind ≠ .operator) (s : String) : op "=>" ≠ (kind, s) := by
  rintro ⟨⟩
  exact h rfl

theorem arrow_ne_op {s : String} (h : "=>" ≠ s) : op "=>" ≠ op s := by
  rintro ⟨⟩
  exact h rfl

end Word

theorem Grammar.SpellsTypes.arrow_notMem {types : List String} (h : SpellsTypes types) :
    Word.op "=>" ∉ words (angled types).toList := by
  obtain ⟨names, -, -, hwords⟩ := h
  rw [hwords]
  intro hmem
  rcases Word.inTypes_of_mem_angled (Word.inTypes_of_mem_spellTypes names) hmem with h | h | h
  · rcases h with h | h | h <;> cases h
  · exact absurd h (by decide)
  · exact absurd h (by decide)

section Arrow

variable {L : Vocabulary} (full : Bool)

open Word

mutual

/-- **The words of an expression without blocks hold no arrow.** -/
theorem Expr.arrow_notMem_spell (hL : ∀ types, L.types types → Grammar.SpellsTypes types) :
    (e : Expr) → e.Over L → op "=>" ∉ e.spell full
  | .number .., _ | .string .., _ | .bool .., _ | .na _, _ | .color .., _ | .name .., _ => by
    simp [Expr.spell, arrow_ne]
  | .member _ object property, h => by
    have hobject := arrow_notMem_operand
      (e := object) (Expr.arrow_notMem_spell hL object h.1) full 8
    simp [Expr.spell, hobject, arrow_ne_label, arrow_ne]
  | .index _ object offset, h => by
    have hobject := arrow_notMem_operand
      (e := object) (Expr.arrow_notMem_spell hL object h.1) full 8
    have hoffset := arrow_notMem_operand
      (e := offset) (Expr.arrow_notMem_spell hL offset h.2) full 0
    simp [Expr.spell, hobject, hoffset, arrow_ne]
  | .call _ _ callee args types, h => by
    have hcallee := arrow_notMem_operand
      (e := callee) (Expr.arrow_notMem_spell hL callee h.2.1) full 8
    have hargs := arrow_notMem_listed _ (arrow_notMem_spellArgs hL args h.2.2.1)
    rw [Expr.spell, mem_append, mem_append, not_or, not_or]
    refine ⟨⟨hcallee, ?_⟩, by simp [grouped, hargs, arrow_ne]⟩
    split
    · simp
    · next hne =>
      refine (hL types (h.2.2.2.resolve_left fun hnil => hne ?_).2).arrow_notMem
      rw [hnil]
      rfl
  | .binary _ bop left right, h => by
    have hop : ∀ o ∈ BinaryOp.known, op "=>" ≠ op o.spelling := by decide
    have hleft := arrow_notMem_operand
      (e := left) (Expr.arrow_notMem_spell hL left h.2.1) full bop.level
    have hright := arrow_notMem_operand
      (e := right) (Expr.arrow_notMem_spell hL right h.2.2) full (bop.level + 1)
    simp [Expr.spell, hleft, hright, hop bop h.1]
  | .unary _ uop operand, h => by
    have hop : ∀ o ∈ UnaryOp.known, op "=>" ≠ op o.spelling := by decide
    have hoperand := arrow_notMem_operand
      (e := operand) (Expr.arrow_notMem_spell hL operand h.2) full 7
    simp [Expr.spell, hoperand, hop uop h.1]
  | .ternary _ cond yes no, h => by
    have hcond := arrow_notMem_operand
      (e := cond) (Expr.arrow_notMem_spell hL cond h.1) full 1
    have hyes := arrow_notMem_operand
      (e := yes) (Expr.arrow_notMem_spell hL yes h.2.1) full 0
    have hno := arrow_notMem_operand
      (e := no) (Expr.arrow_notMem_spell hL no h.2.2) full 0
    simp [Expr.spell, hcond, hyes, hno, arrow_ne, arrow_ne_op]
  | .array _ elements, h => by
    have helements := arrow_notMem_listed _ (arrow_notMem_spellExprs hL elements h)
    simp [Expr.spell, helements, arrow_ne]

theorem arrow_notMem_spellExprs (hL : ∀ types, L.types types → Grammar.SpellsTypes types) :
    (es : List Expr) → ExprsOver L es → ∀ ws ∈ spellExprs full es, op "=>" ∉ ws
  | [], _ => by simp [spellExprs]
  | e :: es, h => by
    intro ws hws
    rw [spellExprs] at hws
    rcases mem_cons.1 hws with rfl | hws
    · exact arrow_notMem_operand (Expr.arrow_notMem_spell hL e h.1) full 0
    · exact arrow_notMem_spellExprs hL es h.2 ws hws

theorem arrow_notMem_spellArgs (hL : ∀ types, L.types types → Grammar.SpellsTypes types) :
    (args : List Arg) → ArgsOver L args → ∀ ws ∈ spellArgs full args, op "=>" ∉ ws
  | [], _ => by simp [spellArgs]
  | .mk name value :: args, h => by
    intro ws hws
    rw [spellArgs] at hws
    rcases mem_cons.1 hws with rfl | hws
    · have hvalue := arrow_notMem_operand
        (e := value) (Expr.arrow_notMem_spell hL value h.2.1) full 0
      rw [mem_append, not_or]
      refine ⟨?_, hvalue⟩
      split
      · simp
      · simp [arrow_ne_label, arrow_ne_op]
    · exact arrow_notMem_spellArgs hL args h.2.2 ws hws

end

end Arrow

/-! ### The statement -/

namespace Grammar

open Pine.Parser Rules

variable {e : Expr} {ts : List Token} {nl eof : Token}

theorem simple_stop {r : Rules} {d : Nesting} {c : Cursor} {past rest : List Token}
    (h : r.expr d c = .ok e ⟨past, nl :: rest⟩) (hnl : nl.kind = .newline) :
    r.simple d c = .ok (.expr c.peek.pos e) ⟨past, nl :: rest⟩ := by
  have hop (s : String) : nl.isOp s = false := by
    rw [← Bool.not_eq_true, Token.isOp_iff, hnl]
    simp
  rw [simple, bind_ok (show peek c = .ok c.peek c from rfl), bind_ok h, bind_ok (peek_ok ..),
    if_neg (by simp [hop]), if_neg (by simp [hop])]
  rfl

theorem endStatement_newline (hnl : nl.kind = .newline) {c : Cursor} (h : c.lastKind ≠ .dedent)
    {rest : List Token} (hc : c.rest = nl :: rest) :
    endStatement c = .ok () ⟨nl :: c.past, rest⟩ := by
  obtain ⟨past, _⟩ := c
  cases hc
  have hpeek : (Cursor.mk past (nl :: rest)).peek.kind = .newline := hnl
  rw [endStatement, if_neg h, hpeek]
  rfl

theorem lastKind_reverse_ne {past rest : List Token} (hne : ts ≠ [])
    (htext : ∀ t ∈ ts, t.kind.isText = true) :
    (Cursor.mk (ts.reverse ++ past) rest).lastKind ≠ .dedent := by
  obtain ⟨t, us, hrev⟩ := exists_cons_of_ne_nil (reverse_ne_nil_iff.2 hne)
  have ht := htext t (mem_reverse.1 (hrev ▸ mem_cons_self ..))
  rw [Cursor.lastKind, hrev]
  change t.kind ≠ .dedent
  rintro hk
  rw [hk] at ht
  cases ht

/-- The words of an expression are a simple statement. -/
theorem simpleStatement_words (he : e.Over .printable) (hts : ts.map Token.word = e.words)
    (htext : ∀ t ∈ ts, t.kind.isText = true) (hnl : nl.kind = .newline) (rest : List Token)
    {n : Nat} (hn : ts.length < n) : ∃ pos e', e'.erase = e.erase ∧
      (rulesAt n).simpleStatement ⟨0, 0⟩ ⟨[], ts ++ nl :: rest⟩ =
        .ok (.expr pos e') ⟨nl :: (ts.reverse ++ []), rest⟩ := by
  have hf : StopsAt 0 (nl :: rest) := stopsAt_of_endsOperand 0 (by rw [hnl]; rfl) rest
  have hread := takes_spell (fun _ => spellsTypes_of_printable) he hts (.inl rfl) hf
  obtain ⟨e', herase, hrun⟩ := hread.expr hn 0 []
  obtain ⟨w, hw, -⟩ := (Expr.opens_spell true e he).operand true 0
  have hne : ts ≠ [] := by
    rintro rfl
    rw [← Expr.words, ← hts] at hw
    cases hw
  refine ⟨(Cursor.mk [] (ts ++ nl :: rest)).peek.pos, e', herase, ?_⟩
  rw [simpleStatement, bind_ok (simple_stop hrun hnl),
    bind_ok (endStatement_newline hnl (lastKind_reverse_ne hne htext) rfl)]
  rfl

/-- **The words of an expression are read as a statement**: no other form of a statement fits. -/
theorem stmtAt_words (he : e.Over .printable) (hts : ts.map Token.word = e.words)
    (htext : ∀ t ∈ ts, t.kind.isText = true) (hnl : nl.kind = .newline) (heof : eof.kind = .eof)
    {n : Nat} (hn : ts.length < n) : ∃ pos e', e'.erase = e.erase ∧
      stmtAt (n + 1) ⟨0, 0⟩ ⟨[], ts ++ [nl, eof]⟩ =
        .ok (.expr pos e') ⟨nl :: (ts.reverse ++ []), [eof]⟩ := by
  have hL (types : List String) (h : Vocabulary.printable.types types) : SpellsTypes types :=
    spellsTypes_of_printable h
  have hopens := (Expr.opens_spell true e he).operand true 8
  rw [Expr.operand_words, ← hts] at hopens
  obtain ⟨w, hw, hstarts, -⟩ := hopens
  obtain ⟨t, us, rfl, rfl⟩ := exists_cons_of_mem_head? hw
  have hlate : Word.bindsLate ((t :: us).map Token.word) = true := by
    rw [hts, ← Expr.operand_words e 0]
    exact Word.bindsLate_operand
      (Expr.bindsLate_spell true (fun types ht => (hL types ht).bindsLate) e he) ..
  have harrow : ∀ u ∈ t :: us ++ [nl, eof], u.isOp "=>" = false := by
    intro u hu
    rw [← Bool.not_eq_true]
    intro hop
    rcases mem_append.1 hu with hu | hu
    · have hmem : u.word ∈ e.words := hts ▸ mem_map_of_mem hu
      rw [Token.word_of_isOp hop, ← Expr.operand_words e 0] at hmem
      exact Word.arrow_notMem_operand (Expr.arrow_notMem_spell true hL e he) true 0 hmem
    · have hkind := (Token.isOp_iff.1 hop).1
      rcases mem_cons.1 hu with rfl | hu
      · rw [hnl] at hkind
        cases hkind
      · rw [mem_singleton.1 hu, heof] at hkind
        cases hkind
  obtain ⟨pos, e', herase, hrun⟩ := simpleStatement_words he hts htext hnl [eof] hn
  refine ⟨pos, e', herase, ?_⟩
  change (rulesAt n).statement ⟨0, 0⟩ ⟨[], t :: us ++ [nl, eof]⟩ = _
  rw [statement, cons_append, bind_ok (peek_ok ..)]
  rw [cons_append] at hrun harrow
  change t.kind.startsExpr = true at hstarts
  have hfunc := attempt_funcHead (sound_at n) ⟨0, 0⟩ (c := ⟨[], t :: (us ++ [nl, eof])⟩) harrow
  cases hk : t.kind with
  | keyword => simp [hk, Token.Kind.startsExpr] at hstarts
  | lbracket => exact (bind_ok (attempt_tupleHead hnl hlate n)).trans hrun
  | identifier =>
    exact (bind_ok hfunc).trans ((bind_ok (attempt_declHead hnl hlate n true)).trans hrun)
  | _ => exact hrun

end Grammar

/-- **Printing an expression and reading it back gives the same expression.** The text of an
expression over single tokens is cut into tokens without an error, and the program is one statement,
the expression up to positions. -/
theorem Program.parse_lex_text {e : Expr} (he : e.Over .printable) :
    (Token.lex 0 e.text.toList).error = none ∧ ∃ pos e', e'.erase = e.erase ∧
      Program.parse ⟨0, 0⟩ (Token.lex 0 e.text.toList).tokens = ⟨[.expr pos e'], []⟩ := by
  have hcuts : Cuts e.text.toList e.words [] := e.cuts_text he [] (by simp [Expr.EndsAt])
  have hstarts := e.startsText he
  have hwords : e.words ≠ [] := by
    obtain ⟨w, hw, -⟩ := (Expr.opens_spell true e he).operand true 0
    rw [Expr.operand_words] at hw
    rintro hnil
    rw [hnil] at hw
    cases hw
  have hblank : Avoids Source.isBlank e.text.toList := by
    rw [← List.append_nil e.text.toList]
    exact hstarts.avoids_blank
  have hmark : e.text.toList.head? ≠ some Source.mark := by
    obtain ⟨c, cs, hs, hc⟩ := hstarts
    rw [hs]
    rintro ⟨⟩
    exact absurd hc (by decide)
  obtain ⟨herror, ts, nl, eof, htokens, hts, htext, hnl, heof⟩ :=
    Token.lex_of_cuts hcuts hwords hblank hmark
  have hne : ts ≠ [] := by
    rintro rfl
    exact hwords hts.symm
  obtain ⟨t, us, rfl⟩ := exists_cons_of_ne_nil hne
  obtain ⟨pos, e', herase, hrun⟩ := Grammar.stmtAt_words he hts htext hnl heof
    (n := (t :: us ++ [nl, eof]).length + 1) (by simp)
  refine ⟨herror, pos, e', herase, ?_⟩
  rw [htokens, Program.parse_eq (Nat.lt_succ_self _) (Nat.le_succ _),
    Grammar.program_ok (c := .start (t :: us ++ [nl, eof])) (htext t (mem_cons_self ..)) hrun,
    Grammar.program_eof (c := ⟨nl :: ((t :: us).reverse ++ []), [eof]⟩) heof]

/-- `ta.if<map<string, a.b>>("\\\"", by=(-.5e-3), [na, #ff00AA])[(not x)]` is read back. -/
theorem Program.parse_lex_text_generic :
    let pos : Pos := ⟨0, 0⟩
    let e : Expr := .index pos (.call pos 0 (.member pos (.name pos "ta") "if")
      [.mk "" (.string pos "\\\""), .mk "by" (.unary pos .neg (.number pos ".5e-3")),
        .mk "" (.array pos [.na pos, .color pos "#ff00AA"])] ["map<string, a.b>"])
      (.unary pos .not (.name pos "x"))
    e.Over .printable ∧ ∃ pos e', e'.erase = e.erase ∧
      Program.parse ⟨0, 0⟩ (Token.lex 0 e.text.toList).tokens = ⟨[.expr pos e'], []⟩ := by
  intro pos e
  have htypes : Vocabulary.printable.types ["map<string, a.b>"] := by
    let words : List Word := [(.operator, "<"), (.identifier, "map"), (.operator, "<"),
      (.identifier, "string"), (.comma, ","), (.identifier, "a"), (.dot, "."), (.identifier, "b"),
      (.operator, ">"), (.operator, ">")]
    let c : Cursor := .start (words.map fun w => ⟨w.1, w.2, 0, 0, 0, 0⟩)
    have hnames : c.Names (Lexeme .identifier) := by
      unfold Cursor.Names
      with_unfolding_all decide
    have hread : Grammar.typeArgs 11 c = .ok ["map<string, a.b>"] ⟨c.rest.reverse, []⟩ := rfl
    have hat := Rule.at_typeArgs (L := Rule.Free) (c.ahead + 1) 11 c (Nat.lt_succ_self _)
      (by decide)
    exact ⟨⟨c, 0, 0⟩, _, hnames, (hat.agrees ⟨0, 0⟩).trans (congrArg (Rule.outcome _) hread)⟩
  have hnames : ∀ s ∈ ["ta", "x"], Lexeme .identifier s := by with_unfolding_all decide
  have hlabels : ∀ s ∈ ["if", "by"], Lexeme .identifier s ∨ Lexeme .keyword s := by
    with_unfolding_all decide
  have hstring : "\\\"".toList.all isAscii = true := by with_unfolding_all decide
  have hnumber : Lexeme .number ".5e-3" := by with_unfolding_all decide
  have hcolor : Lexeme .color "#ff00AA" := by with_unfolding_all decide
  have hargs : ArgsOver .printable
      [.mk "" (.string pos "\\\""), .mk "by" (.unary pos .neg (.number pos ".5e-3")),
        .mk "" (.array pos [.na pos, .color pos "#ff00AA"])] :=
    ⟨.inl rfl, all_eq_true.1 hstring, .inr (hlabels "by" (by simp)), ⟨by decide, hnumber⟩,
      .inl rfl, ⟨trivial, hcolor, trivial⟩, trivial⟩
  have he : e.Over .printable :=
    ⟨⟨⟨rfl, rfl⟩, ⟨hnames "ta" (by simp), rfl, hlabels "if" (by simp)⟩, hargs, .inr ⟨rfl, htypes⟩⟩,
      by decide, hnames "x" (by simp)⟩
  exact ⟨he, (Program.parse_lex_text he).2⟩

end Pine
