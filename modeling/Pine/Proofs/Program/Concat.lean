import Pine.Proofs.Grammar.Agree

/-!
# Programs in a row

Two sources in a row form the program of the first one followed by the program of the second one.
Both readings are compared with the reading of the two sources together: that of the first one up
to the seam, and that of the second one from there on, at other positions.

## Main results

* `Grammar.program_seam`: the statements before the seam are those of the first source.
* `Grammar.program_moved`: the statements and errors after it are those of the second source.
* `Program.parse_lex_append`: the program of two sources in a row.
-/

namespace Pine

open List

/-! ### Up to the seam -/

/-- The left cursor has the end of input where the right one goes on with the tokens `next`. -/
structure Cursor.Before (next : List Token) (a b : Nat) (c c' : Cursor) : Prop where
  rest : ∃ ts eof, c.rest = ts ++ [eof] ∧ c'.rest = ts ++ next ∧ eof.kind = .eof ∧
    Token.levelAfter a ts = 0 ∧ Token.blocksAfter b ts = 0 ∧ (∀ t ∈ ts, t.kind ≠ .eof) ∧
    ∀ t ∈ (c.past.reverse ++ ts).getLast?, t.kind.isBreak = true
  past : c'.past = c.past

namespace Cursor.Before

variable {t : Token} {next : List Token} {a b : Nat} {c c' : Cursor}

theorem peek (h : c.Before (t :: next) a b c') (ht : t.Starts) :
    c.peek.Twin id c'.peek ∨ c.AtSeam a b c' := by
  obtain ⟨past, rest⟩ := c
  obtain ⟨past', rest'⟩ := c'
  obtain ⟨⟨ts, eof, rfl, rfl, heof, hl, hb, -, hlast⟩, rfl⟩ := h
  cases ts with
  | cons u ts => exact .inl ⟨rfl, rfl, rfl⟩
  | nil =>
    refine .inr ⟨hl, hb, heof, ht, ?_, rfl⟩
    cases past' with
    | nil => rfl
    | cons u past => exact hlast u (by simp)

theorem peekNext (h : c.Before next a b c') (hk : c.peek.kind.isBreak = false) :
    c.peekNext.Twin id c'.peekNext := by
  obtain ⟨past, rest⟩ := c
  obtain ⟨past', rest'⟩ := c'
  obtain ⟨⟨ts, eof, rfl, rfl, heof, -, -, -, hlast⟩, rfl⟩ := h
  match ts with
  | [] =>
    change eof.kind.isBreak = false at hk
    rw [heof] at hk
    cases hk
  | [u] =>
    have := hlast u (by simp)
    exact absurd (hk.symm.trans this) (by simp)
  | u :: v :: ts => exact ⟨rfl, rfl, rfl⟩

theorem advance (h : c.Before next a b c') (hk : c.peek.kind ≠ .eof) :
    c.advance.Before next (Layout.nest c.peek.kind a) (c.peek.kind.blocks b) c'.advance := by
  obtain ⟨past, rest⟩ := c
  obtain ⟨past', rest'⟩ := c'
  obtain ⟨⟨ts, eof, rfl, rfl, heof, hl, hb, he, hlast⟩, rfl⟩ := h
  cases ts with
  | nil => exact absurd heof hk
  | cons u ts =>
    refine ⟨⟨ts, eof, rfl, rfl, heof, hl, hb, fun t ht => he t (mem_cons_of_mem u ht), ?_⟩, rfl⟩
    simpa [Cursor.advance] using hlast

theorem length_rest (h : c.Before next a b c') :
    c'.ahead + 1 = c.ahead + next.length := by
  obtain ⟨⟨ts, eof, hc, hc', -⟩, -⟩ := h
  rw [Cursor.ahead, Cursor.ahead, hc, hc', length_append, length_append, length_singleton]
  omega

theorem of_eof (h : c.Before next a b c') (hk : c.peek.kind = .eof) : c'.rest = next ∧ b = 0 := by
  obtain ⟨⟨ts, eof, hc, hc', -, -, hb, he, -⟩, -⟩ := h
  cases ts with
  | nil => exact ⟨hc', hb⟩
  | cons u ts =>
    refine absurd ?_ (he u (mem_cons_self ..))
    rw [Cursor.peek, hc] at hk
    exact hk

end Cursor.Before

/-- A reading up to its end, and one that goes on there with a token that starts a statement. -/
def Coupling.seam (t : Token) (ht : t.Starts) (next : List Token) : Coupling where
  move := id
  joined := True
  Rel := Cursor.Before (t :: next)
  rest_ne_nil h := by
    obtain ⟨⟨ts, eof, hc, -⟩, -⟩ := h
    simp [hc]
  peek h := (h.peek ht).imp_right fun hs => ⟨trivial, hs⟩
  peekNext h hk := h.peekNext hk
  advance h hk := h.advance hk
  eof_in_block h hk := absurd (h.of_eof hk |>.2) (Nat.succ_ne_zero _)

/-! ### Reading a program -/

namespace Grammar

section Program

variable {stmt : Parser Stmt} {n errors : Nat} {c c' : Cursor}

theorem program_eof (h : c.peek.kind = .eof) : program stmt n errors c = ([], []) := by
  cases n with
  | zero => rfl
  | succ n => rw [program, h]

theorem program_layout (h : c.peek.kind.isLayout = true) :
    program stmt (n + 1) errors c = program stmt n errors c.advance := by
  rw [program]
  cases hk : c.peek.kind with
  | newline | indent | dedent => rfl
  | _ =>
    rw [hk] at h
    cases h

theorem program_ok {s : Stmt} (h : c.peek.kind.isText = true) (hs : stmt c = .ok s c') :
    program stmt (n + 1) errors c =
      (s :: (program stmt n errors c').1, (program stmt n errors c').2) := by
  rw [program, hs]
  cases hk : c.peek.kind with
  | newline | indent | dedent | eof =>
    rw [hk] at h
    cases h
  | _ => rfl

theorem program_error {e : ParseError} (h : c.peek.kind.isText = true)
    (hs : stmt c = .error e c') :
    program stmt (n + 1) errors c = if maxErrors ≤ errors + 1 then ([], [e])
      else ((program stmt n (errors + 1) (synchronize c')).1,
        e :: (program stmt n (errors + 1) (synchronize c')).2) := by
  rw [program, hs]
  cases hk : c.peek.kind with
  | newline | indent | dedent | eof =>
    rw [hk] at h
    cases h
  | _ => rfl

end Program

/-- **The statements before the seam** are those of the reading that ends there. -/
theorem program_seam {t : Token} (ht : t.Starts) {next : List Token} {fuel : Nat} (d : Nesting)
    (errors n n' : Nat) {a b : Nat} {c c' : Cursor}
    (h : c.Before (t :: next) a b c') (hf : c.ahead + 1 < fuel) (hn : c.ahead < n)
    (hn' : c'.ahead < n') (he : (program (stmtAt fuel d) n errors c).2 = []) :
    ∃ past m, (t :: next).length < m ∧
      (program (stmtAt fuel d) n' errors c').1 = (program (stmtAt fuel d) n errors c).1 ++
        (program (stmtAt fuel d) m errors ⟨past, t :: next⟩).1 ∧
      (program (stmtAt fuel d) n' errors c').2 =
        (program (stmtAt fuel d) m errors ⟨past, t :: next⟩).2 := by
  induction n generalizing n' a b c c' with
  | zero => exact absurd hn (Nat.not_lt_zero _)
  | succ n ih =>
    obtain ⟨n', rfl⟩ := Nat.exists_eq_add_one_of_ne_zero (Nat.ne_zero_of_lt hn')
    have hlen := h.length_rest
    by_cases heof : c.peek.kind = .eof
    · rw [program_eof heof]
      refine ⟨c'.past, n' + 1, ?_, ?_⟩
      · rw [← (h.of_eof heof).1]
        exact hn'
      · rw [← (h.of_eof heof).1]
        exact ⟨rfl, rfl⟩
    have htwin := (h.peek ht).resolve_right fun hs => heof hs.left
    have hadv := Cursor.ahead_advance_lt rfl heof
    by_cases hl : c.peek.kind.isLayout = true
    · have h₁ := h.advance heof
      have hlen₁ := h₁.length_rest
      rw [program_layout hl] at he ⊢
      rw [program_layout (c := c') (by rwa [htwin.kind])]
      exact ih n' h₁ (by omega) (by omega) (by omega) he
    · have htext : c.peek.kind.isText = true := by simp [Token.Kind.isText, hl, heof]
      have htext' : c'.peek.kind.isText = true := by rwa [htwin.kind]
      have hfirm : (Coupling.seam t ht next).Firm False a := False.elim
      have hboth := (agree_at (.seam t ht next) fuel).stmt d hfirm ⟨h, htwin⟩ hf
      unfold Coupling.Agrees Coupling.Gives Coupling.Both at hboth
      split at hboth
      · next x s y s' hs hs' =>
        obtain ⟨rfl, ⟨h₁, -⟩, hlt⟩ := hboth
        have hlen₁ := h₁.length_rest
        rw [program_ok htext hs] at he ⊢
        rw [program_ok htext' hs']
        obtain ⟨past, m, hm, hp, hq⟩ := ih n' h₁ (by omega) (by omega) (by omega) he
        refine ⟨past, m, hm, ?_, hq⟩
        rw [hp, cons_append]
        exact congrArg (· :: _) (Stmt.relocate_id x)
      · next hs _ =>
        rw [program_error htext hs] at he
        split at he <;> cases he
      · next hs _ =>
        rw [program_error htext hs] at he
        split at he <;> cases he
      · exact hboth.elim

end Grammar

/-! ### After the seam -/

/-- The cursor in a source that stands `offset` characters and `lines` lines later, after the tokens
`base`. -/
def Cursor.moved (offset lines : Nat) (base : List Token) (c : Cursor) : Cursor :=
  ⟨c.past.map (Token.shift offset lines) ++ base, c.rest.map (Token.shift offset lines)⟩

namespace Cursor

variable {offset lines : Nat} {base : List Token} {c : Cursor}

theorem moved_advance : (c.moved offset lines base).advance = c.advance.moved offset lines base := by
  obtain ⟨past, rest⟩ := c
  cases rest <;> rfl

theorem twin_shift (t : Token) : t.Twin (Pos.below lines) (t.shift offset lines) := ⟨rfl, rfl, rfl⟩

theorem peek_moved (h : c.rest ≠ []) :
    c.peek.Twin (Pos.below lines) (c.moved offset lines base).peek := by
  obtain ⟨past, rest⟩ := c
  cases rest with
  | nil => exact absurd rfl h
  | cons t rest => exact twin_shift t

/-- The last token that is left is the end of input. -/
def EndsInput (c : Cursor) : Prop := ∀ t ∈ c.rest.getLast?, t.kind = .eof

theorem EndsInput.advance (h : c.EndsInput) : c.advance.EndsInput := by
  obtain ⟨past, rest⟩ := c
  match rest with
  | [] => exact h
  | [t] => exact fun u hu => absurd hu (by simp [Cursor.advance])
  | t :: u :: rest =>
    unfold EndsInput at *
    rwa [getLast?_cons_cons] at h

theorem EndsInput.rest_advance (h : c.EndsInput) (hk : c.peek.kind ≠ .eof) :
    c.advance.rest ≠ [] := by
  obtain ⟨past, rest⟩ := c
  match rest with
  | [] => exact absurd (Cursor.kind_endAfter _) hk
  | [t] => exact absurd (h t rfl) hk
  | t :: u :: rest => exact cons_ne_nil _ _

end Cursor

/-- A reading with at most `bound` tokens left, and the same reading in a source that stands later. -/
def Coupling.moved (offset lines : Nat) (base : List Token) (bound : Nat) : Coupling where
  move := Pos.below lines
  joined := False
  Rel _ _ c c' := c' = c.moved offset lines base ∧ c.rest ≠ [] ∧ c.EndsInput ∧
    c.ahead ≤ bound
  rest_ne_nil h := h.2.1
  peek := by
    rintro a b c _ ⟨rfl, hr, -⟩
    exact .inl (Cursor.peek_moved hr)
  peekNext := by
    rintro a b c _ ⟨rfl, hr, he, -⟩ hk
    have hne : c.peek.kind ≠ .eof := by
      intro heof
      rw [heof] at hk
      cases hk
    have hne' : (c.moved offset lines base).peek.kind ≠ .eof := by
      rwa [(Cursor.peek_moved hr).kind]
    rw [← Cursor.peek_advance hne, ← Cursor.peek_advance hne', Cursor.moved_advance]
    exact Cursor.peek_moved (he.rest_advance hne)
  advance := by
    rintro a b c _ ⟨rfl, hr, he, hb⟩ hk
    exact ⟨Cursor.moved_advance, he.rest_advance hk, he.advance,
      Nat.le_trans c.length_rest_advance_le hb⟩
  eof_in_block h _ := ⟨not_false, h⟩

namespace Grammar

theorem skipTo_moved {offset lines : Nat} {base : List Token} :
    (rest past : List Token) → past ≠ [] →
    skipTo (past.map (Token.shift offset lines) ++ base) (rest.map (Token.shift offset lines)) =
      (skipTo past rest).moved offset lines base
  | [], past, _ => rfl
  | t :: rest, u :: past, _ => by
    rw [map_cons, map_cons, cons_append, skipTo.eq_2, skipTo.eq_2 (u :: past)]
    by_cases h : (decide (t.kind = .eof) || (u :: past).head?.any (·.kind = .newline) ||
      resumes t) = true
    · rw [if_pos h, if_pos (by exact h)]
      rfl
    · rw [if_neg h, if_neg (by exact h)]
      exact skipTo_moved rest (t :: u :: past) (cons_ne_nil _ _)

theorem skipTo_spec : (rest past : List Token) → Cursor.EndsInput ⟨past, rest⟩ →
    (skipTo past rest).EndsInput ∧ (skipTo past rest).ahead ≤ rest.length
  | [], past, h => ⟨h, Nat.le_refl _⟩
  | t :: rest, past, h => by
    unfold skipTo
    split
    · exact ⟨h, Nat.le_refl _⟩
    · obtain ⟨he, hlen⟩ := skipTo_spec rest (t :: past) h.advance
      exact ⟨he, Nat.le_succ_of_le hlen⟩

theorem synchronize_moved {offset lines : Nat} {base : List Token} {c : Cursor} (h : c.rest ≠ []) :
    synchronize (c.moved offset lines base) = (synchronize c).moved offset lines base := by
  obtain ⟨past, rest⟩ := c
  cases rest with
  | nil => exact absurd rfl h
  | cons t rest => exact skipTo_moved rest (t :: past) (cons_ne_nil _ _)

theorem synchronize_spec {c : Cursor} (h : c.rest ≠ []) (he : c.EndsInput) :
    (synchronize c).EndsInput ∧ (synchronize c).ahead < c.ahead := by
  obtain ⟨past, rest⟩ := c
  cases rest with
  | nil => exact absurd rfl h
  | cons t rest =>
    obtain ⟨he', hlen⟩ := skipTo_spec rest (t :: past) he.advance
    exact ⟨he', Nat.lt_succ_of_le hlen⟩

/-- **The statements and errors after the seam** are those of the second source, moved. -/
theorem program_moved (offset lines : Nat) (base : List Token) {fuel : Nat} (d : Nesting)
    (n n' errors : Nat) {c : Cursor} (he : c.EndsInput)
    (hf : c.ahead + 1 < fuel) (hn : c.ahead < n) (hn' : c.ahead < n') :
    (program (stmtAt fuel d) n' errors (c.moved offset lines base)).1 =
        relocateStmts (Pos.below lines) (program (stmtAt fuel d) n errors c).1 ∧
      (program (stmtAt fuel d) n' errors (c.moved offset lines base)).2 =
        (program (stmtAt fuel d) n errors c).2.map (ParseError.relocate (Pos.below lines)) := by
  induction n generalizing n' errors c with
  | zero => exact absurd hn (Nat.not_lt_zero _)
  | succ n ih =>
    obtain ⟨n', rfl⟩ := Nat.exists_eq_add_one_of_ne_zero (Nat.ne_zero_of_lt hn')
    have hkind : (c.moved offset lines base).peek.kind = c.peek.kind := by
      by_cases hr : c.rest = []
      · rw [Cursor.peek, Cursor.peek, Cursor.moved, hr]
        simp
      · exact (Cursor.peek_moved hr).kind
    by_cases heof : c.peek.kind = .eof
    · rw [program_eof heof, program_eof (hkind.trans heof)]
      exact ⟨rfl, rfl⟩
    have hadv := Cursor.ahead_advance_lt rfl heof
    by_cases hl : c.peek.kind.isLayout = true
    · rw [program_layout hl, program_layout (by rwa [hkind]), Cursor.moved_advance]
      exact ih n' errors he.advance (by omega) (by omega) (by omega)
    have htext : c.peek.kind.isText = true := by simp [Token.Kind.isText, hl, heof]
    have htext' : (c.moved offset lines base).peek.kind.isText = true := by rwa [hkind]
    have hr : c.rest ≠ [] := ne_nil_of_length_pos (Nat.zero_lt_of_lt hadv)
    have hfirm : (Coupling.moved offset lines base c.ahead).Firm True 0 :=
      fun _ h => h.elim
    have hhere : (Coupling.moved offset lines base c.ahead).Here 0 0 c
        (c.moved offset lines base) := ⟨⟨rfl, hr, he, Nat.le_refl _⟩, Cursor.peek_moved hr⟩
    have hboth := (agree_at (.moved offset lines base c.ahead) fuel).stmt d
      hfirm hhere hf
    unfold Coupling.Agrees Coupling.Gives Coupling.Both at hboth
    split at hboth
    · next x s y s' hs hs' =>
      obtain ⟨rfl, ⟨⟨rfl, -, he₁, -⟩, -⟩, hlt⟩ := hboth
      rw [program_ok htext hs, program_ok htext' hs']
      obtain ⟨hp, hq⟩ := ih n' errors he₁ (by omega) (by omega) (by omega)
      exact ⟨congrArg (_ :: ·) hp, hq⟩
    · next e s e' s' hs hs' =>
      obtain ⟨rfl, -, -, rfl, hr₁, he₁, hle⟩ := hboth.resolve_left not_false
      obtain ⟨he₂, hlt⟩ := synchronize_spec hr₁ he₁
      rw [program_error htext hs, program_error htext' hs', synchronize_moved hr₁]
      split
      · exact ⟨rfl, rfl⟩
      · obtain ⟨hp, hq⟩ := ih n' (errors + 1) he₂ (by omega) (by omega) (by omega)
        exact ⟨hp, congrArg (_ :: ·) hq⟩
    · exact hboth.1.elim
    · exact hboth.elim

end Grammar

/-! ### Two sources -/

theorem Program.parse_eq {tokens : List Token} {fuel n : Nat} (hf : tokens.length + 1 < fuel)
    (hn : tokens.length ≤ n) :
    Program.parse ⟨0, 0⟩ tokens =
      ⟨(Grammar.program (Grammar.stmtAt fuel ⟨0, 0⟩) n 0 (Cursor.start tokens)).1,
        (Grammar.program (Grammar.stmtAt fuel ⟨0, 0⟩) n 0 (Cursor.start tokens)).2⟩ := by
  rw [Program.parse_eq_program, if_neg fun h => absurd h.1 (Nat.lt_irrefl 0),
    Rule.program_congr (c := .start tokens) hf (Nat.lt_succ_self _) hn (Nat.le_succ _)]
  rfl

/-- The program of whole lines without errors, followed by other tokens in place of their end. -/
theorem Program.parse_append {us ts : List Token} {eof t : Token} (offset lines : Nat)
    (hus : Token.WholeLines us) (hk : eof.kind = .eof)
    (hp : (Program.parse ⟨0, 0⟩ (us ++ [eof])).errors = []) (ht : t.Starts)
    (hts : ∀ u ∈ (t :: ts).getLast?, u.kind = .eof) :
    (Program.parse ⟨0, 0⟩ (us ++ (t :: ts).map (Token.shift offset lines))).program =
        (Program.parse ⟨0, 0⟩ (us ++ [eof])).program ++
          (Program.parse ⟨0, 0⟩ (t :: ts)).program.relocate (Pos.below lines) ∧
      (Program.parse ⟨0, 0⟩ (us ++ (t :: ts).map (Token.shift offset lines))).errors =
        (Program.parse ⟨0, 0⟩ (t :: ts)).errors.map (ParseError.relocate (Pos.below lines)) := by
  have ht' : (t.shift offset lines).Starts := ht
  have hbefore : (Cursor.start (us ++ [eof])).Before
      (t.shift offset lines :: ts.map (Token.shift offset lines)) 0 0
      (Cursor.start (us ++ (t :: ts).map (Token.shift offset lines))) :=
    ⟨⟨us, eof, rfl, rfl, hk, hus.level, hus.blocks, hus.eof, hus.last⟩, rfl⟩
  have hlen : (us ++ (t :: ts).map (Token.shift offset lines)).length =
      us.length + (t :: ts).length := by
    simp
  generalize us ++ (t :: ts).map (Token.shift offset lines) = both at hbefore hlen ⊢
  have hone : (us ++ [eof]).length ≤ both.length := by
    rw [hlen, length_append]
    simp
  have htwo : (t :: ts).length ≤ both.length := hlen ▸ Nat.le_add_left _ _
  have hread {tokens : List Token} (h : tokens.length ≤ both.length) :=
    Program.parse_eq (Nat.lt_succ_of_le (Nat.succ_le_succ h)) (Nat.le_succ_of_le h)
  rw [hread hone] at hp ⊢
  rw [hread (Nat.le_refl _), hread htwo]
  obtain ⟨past, m, hm, hprogram, herrors⟩ := Grammar.program_seam ht' ⟨0, 0⟩ 0 _ _ hbefore
    (Nat.lt_succ_of_le (Nat.succ_le_succ hone)) (Nat.lt_succ_of_le hone) (Nat.lt_succ_self _) hp
  have hm' : (t :: ts).length < m := by simpa using hm
  obtain ⟨hprogram', herrors'⟩ := Grammar.program_moved offset lines past ⟨0, 0⟩ _ m 0
    (c := Cursor.start (t :: ts)) hts (Nat.lt_succ_of_le (Nat.succ_le_succ htwo))
    (Nat.lt_succ_of_le htwo) hm'
  exact ⟨hprogram.trans (congrArg _ hprogram'), herrors.trans herrors'⟩

/-- **Programs compose by concatenation of their sources.** If the first source ends with a newline
and is read without errors, and the second one can be cut into tokens and starts at its first
character with a name or a keyword other than `else`, then both together can be cut into tokens and
form the statements of the first followed by those of the second, with the errors of the second;
these stand as many lines lower as the first source has. -/
theorem Program.parse_lex_append {s₁ s₂ : List Char} (hr : '\r' ∉ s₁ ++ s₂)
    (hm : Source.mark ∉ s₁ ++ s₂) (hn : s₁.getLast? = some '\n')
    (h₁ : (Token.lex 0 s₁).error = none)
    (hp : (Program.parse ⟨0, 0⟩ (Token.lex 0 s₁).tokens).errors = [])
    (h₂ : (Token.lex 0 s₂).error = none)
    (hs : ∃ t ∈ (Token.lex 0 s₂).tokens.head?, t.start = 0 ∧ t.Starts) :
    (Token.lex 0 (s₁ ++ s₂)).error = none ∧
      (Program.parse ⟨0, 0⟩ (Token.lex 0 (s₁ ++ s₂)).tokens).program =
        (Program.parse ⟨0, 0⟩ (Token.lex 0 s₁).tokens).program ++
          (Program.parse ⟨0, 0⟩ (Token.lex 0 s₂).tokens).program.relocate
            (Pos.below (s₁.count '\n')) ∧
      (Program.parse ⟨0, 0⟩ (Token.lex 0 (s₁ ++ s₂)).tokens).errors =
        (Program.parse ⟨0, 0⟩ (Token.lex 0 s₂).tokens).errors.map
          (ParseError.relocate (Pos.below (s₁.count '\n'))) := by
  obtain ⟨t, ht, hstart, hstarts⟩ := hs
  obtain ⟨ts, ht⟩ := head?_eq_some_iff.1 ht
  have hlevel : Token.levelAfter 0 (Token.lex 0 s₁).tokens = 0 := by
    obtain ⟨us, eof, hus, hk, hne⟩ := Token.exists_eof_of_lex h₁
    rw [hus] at hp ⊢
    exact Program.levelAfter_of_parse hp hk hne
  have htext : t.kind.isText = true := by
    rcases hstarts with hk | ⟨hk, -⟩
    all_goals
      rw [hk]
      rfl
  have hlast : ∀ u ∈ (t :: ts).getLast?, u.kind = .eof := by
    obtain ⟨us, eof, hus, hk, -⟩ := Token.exists_eof_of_lex h₂
    intro u hu
    rw [← ht, hus, getLast?_concat] at hu
    cases hu
    exact hk
  obtain ⟨us, eof, hus, hk, hwhole, hjoin⟩ := Token.lex_append hr hm hn h₁ hlevel h₂ ht hstart htext
  rw [hjoin, hus, ht]
  rw [hus] at hp
  exact ⟨rfl, Program.parse_append _ _ hwhole hk hp hstarts hlast⟩

/-- An open block is closed at the seam, and the error after it is reported two lines lower. -/
theorem Program.parse_lex_append_block :
    (Program.parse ⟨0, 0⟩ (Token.lex 0 "if a\n    b := 1\nc = )\nd = 2".toList).tokens).errors =
      (Program.parse ⟨0, 0⟩ (Token.lex 0 "c = )\nd = 2".toList).tokens).errors.map
        (ParseError.relocate (Pos.below 2)) := by
  have hr : '\r' ∉ "if a\n    b := 1\n".toList ++ "c = )\nd = 2".toList := by decide
  refine (Program.parse_lex_append hr ?_ ?_ ?_ ?_ ?_ ?_).2.2
  all_goals decide +kernel

end Pine
