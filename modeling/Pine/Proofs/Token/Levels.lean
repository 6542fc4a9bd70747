import Pine.Proofs.Compile.Limits

/-!
# Levels of indentation

A layout run changes its levels of indentation one at a time. Between two neighbouring states of a
run lies a single move: nothing but the place changes, or one token is made, and a token that opens
or closes a block is made together with the change of the levels. So the levels can be counted in
the tokens at every point of a run and not only between the pieces of the source.

## Main results

* `Layout.Levelled.move`: every move keeps the levels rising and counted by the tokens.
* `Layout.path_runAll`: a run is a path of moves.
* `Layout.Path.exists_tokens_eq`: every beginning of the tokens is all the tokens of some state.
* `Token.levels_lexTrace`: the levels at every point of a run, and the balance of the tokens.
-/

namespace Pine

open List

namespace Token

/-- How many tokens open a block. -/
def indents (ts : List Token) : Nat := ts.countP (·.kind = .indent)

/-- How many tokens close a block. -/
def dedents (ts : List Token) : Nat := ts.countP (·.kind = .dedent)

theorem indents_concat (ts : List Token) (t : Token) :
    indents (ts ++ [t]) = indents ts + if t.kind = .indent then 1 else 0 := by
  simp [indents, countP_singleton]

theorem dedents_concat (ts : List Token) (t : Token) :
    dedents (ts ++ [t]) = dedents ts + if t.kind = .dedent then 1 else 0 := by
  simp [dedents, countP_singleton]

end Token

namespace Layout

/-- The widths of the open blocks, outermost first, over the base width zero. The state of a run
holds the widths of open blocks only, so that the base is there by definition. -/
def levels (s : Layout) : List Nat := 0 :: s.widths.reverse

/-! ### Moves -/

/-- What can happen between two neighbouring states of a run. -/
inductive Move (s s' : Layout) : Prop
  /-- No token is made. -/
  | pass (hw : s'.widths = s.widths) (ht : s'.tokens = s.tokens)
  /-- A token of text, or the end of a line. -/
  | token (t : Token) (hk : t.kind ≠ .indent ∧ t.kind ≠ .dedent ∧ t.kind ≠ .eof)
      (hw : s'.widths = s.widths) (ht : s'.tokens = s.tokens.push t)
  /-- A block opens that is wider than the innermost one. -/
  | opens (t : Token) (hk : t.kind = .indent) (width : Nat) (hwide : s.top < width)
      (hw : s'.widths = width :: s.widths) (ht : s'.tokens = s.tokens.push t)
  /-- The innermost block closes. -/
  | closes (t : Token) (hk : t.kind = .dedent) (width : Nat)
      (hw : s.widths = width :: s'.widths) (ht : s'.tokens = s.tokens.push t)
  /-- The source ends, and no block is open. -/
  | ends (t : Token) (hk : t.kind = .eof) (hs : s.widths = []) (hs' : s'.widths = [])
      (ht : s'.tokens = s.tokens.push t)

/-- Moves in a row from a state through the listed ones to the last. -/
inductive Path : Layout → List Layout → Layout → Prop
  | nil (s : Layout) : Path s [] s
  | cons {s t u : Layout} {points : List Layout} (hm : Move s t) (hp : Path t points u) :
      Path s (t :: points) u

namespace Path

variable {s t u : Layout} {points more : List Layout}

theorem append (h : Path s points t) (h' : Path t more u) : Path s (points ++ more) u := by
  induction h with
  | nil => exact h'
  | cons hm _ ih => exact .cons hm (ih h')

theorem single (h : Move s t) : Path s [t] t := .cons h (.nil t)

/-- What holds at the start and is kept by every move holds at every point. -/
theorem forall_of_move {P : Layout → Prop} (hmove : ∀ {s s'}, Move s s' → P s → P s')
    (h : Path s points t) (hs : P s) : ∀ u ∈ s :: points, P u := by
  induction h with
  | nil => simpa using hs
  | cons hm _ ih => exact forall_mem_cons.2 ⟨hs, ih (hmove hm hs)⟩

theorem last_mem (h : Path s points t) : t ∈ s :: points := by
  induction h with
  | nil => exact mem_singleton_self _
  | cons _ _ ih => exact mem_cons_of_mem _ ih

end Path

theorem Move.tokens_eq {s s' : Layout} (h : Move s s') :
    s'.tokens = s.tokens ∨ ∃ t, s'.tokens = s.tokens.push t := by
  cases h with
  | pass _ ht => exact .inl ht
  | token t _ _ ht | opens t _ _ _ _ ht | closes t _ _ _ ht | ends t _ _ _ ht => exact .inr ⟨t, ht⟩

/-- **Every beginning of the tokens is all the tokens of some state on the way**, because a move
makes at most one token. -/
theorem Path.exists_tokens_eq {s t : Layout} {points : List Layout} (h : Path s points t)
    {ts : List Token} (hts : ts <+: t.tokens.toList) :
    ts <+: s.tokens.toList ∨ ∃ u ∈ points, u.tokens.toList = ts := by
  induction h with
  | nil => exact .inl hts
  | @cons s t _ _ hm _ ih =>
    obtain hts | ⟨u, hu, heq⟩ := ih hts
    · obtain ht | ⟨tok, ht⟩ := hm.tokens_eq
      · exact .inl (ht ▸ hts)
      · rw [ht, Array.toList_push, prefix_concat_iff] at hts
        refine hts.symm.imp_right fun heq => ⟨t, mem_cons_self .., ?_⟩
        rw [ht, Array.toList_push, heq]
    · exact .inr ⟨u, mem_cons_of_mem _ hu, heq⟩

/-! ### Levels -/

/-- The levels rise, and the tokens count them. -/
structure Levelled (s : Layout) : Prop where
  rising : s.levels.Pairwise (· < ·)
  height : (s.levels.length : Int) - 1 =
    Token.indents s.tokens.toList - Token.dedents s.tokens.toList

theorem levels_cons {s s' : Layout} {width : Nat} (h : s'.widths = width :: s.widths) :
    s'.levels = s.levels ++ [width] := by
  rw [levels, h, reverse_cons]
  rfl

/-- The top is the last of the levels, so all of them are below what is above the top. -/
theorem lt_of_top_lt {s : Layout} (h : s.levels.Pairwise (· < ·)) {width : Nat}
    (htop : s.top < width) : ∀ w ∈ s.levels, w < width := by
  cases hw : s.widths with
  | nil =>
    rw [top, hw] at htop
    simpa [levels, hw] using htop
  | cons inner outer =>
    have hlevels : s.levels = (0 :: outer.reverse) ++ [inner] := by simp [levels, hw]
    rw [hlevels] at h ⊢
    rw [top, hw] at htop
    intro w hmem
    rcases mem_append.1 hmem with hmem | hmem
    · exact ((pairwise_append.1 h).2.2 w hmem inner (mem_singleton_self _)).trans htop
    · rwa [mem_singleton.1 hmem]

namespace Levelled

theorem initial : Levelled {} := ⟨pairwise_singleton _ _, rfl⟩

/-- **Every move keeps the levels.** -/
theorem move {s s' : Layout} (hm : Move s s') (h : s.Levelled) : s'.Levelled := by
  obtain ⟨hr, hh⟩ := h
  cases hm with
  | pass hw ht => exact ⟨by rwa [levels, hw], by rwa [levels, hw, ht]⟩
  | token t hk hw ht =>
    refine ⟨by rwa [levels, hw], ?_⟩
    rw [ht, Array.toList_push, Token.indents_concat, Token.dedents_concat, if_neg hk.1,
      if_neg hk.2.1, levels, hw]
    exact hh
  | opens t hk width hwide hw ht =>
    have hlevels := levels_cons hw
    refine ⟨?_, ?_⟩
    · rw [hlevels, pairwise_append]
      refine ⟨hr, pairwise_singleton _ _, fun w hmem v hv => ?_⟩
      rw [mem_singleton.1 hv]
      exact lt_of_top_lt hr hwide w hmem
    · rw [ht, Array.toList_push, Token.indents_concat, Token.dedents_concat, hlevels,
        length_append, hk]
      simp
      omega
  | closes t hk width hw ht =>
    have hlevels := levels_cons hw
    rw [hlevels] at hr hh
    refine ⟨(pairwise_append.1 hr).1, ?_⟩
    rw [length_append] at hh
    rw [ht, Array.toList_push, Token.indents_concat, Token.dedents_concat, hk]
    simp at hh ⊢
    omega
  | ends t hk hs hs' ht =>
    have hlevels : s'.levels = s.levels := by rw [levels, hs', ← hs, ← levels]
    rw [← hlevels] at hr hh
    refine ⟨hr, ?_⟩
    rw [ht, Array.toList_push, Token.indents_concat, Token.dedents_concat, hk]
    exact hh

theorem dedents_le {s : Layout} (h : s.Levelled) :
    Token.dedents s.tokens.toList ≤ Token.indents s.tokens.toList := by
  have hh := h.height
  simp only [levels, length_cons] at hh
  omega

theorem indents_eq {s : Layout} (h : s.Levelled) (hw : s.widths = []) :
    Token.indents s.tokens.toList = Token.dedents s.tokens.toList := by
  have hh := h.height
  simp only [levels, hw, reverse_nil, length_singleton] at hh
  omega

end Levelled

/-! ### The states of a run -/

/-- The innermost block closes. -/
def close (s : Layout) : Layout := { s.mark .dedent with widths := s.widths.tail }

/-- The states of closing so many blocks one by one. -/
def closings : Nat → Layout → List Layout
  | 0, _ => []
  | n + 1, s => s.close :: closings n s.close

/-- The states of an indentation. -/
def openTrace (s : Layout) (width : Nat) (next : Option Piece) : List Layout :=
  if next.any isCode then
    if s.top < width then [(s.indentTo width).1]
    else closings (s.widths.takeWhile (width < ·)).length s
  else []

/-- The states of one piece. -/
def stepTrace (s : Layout) (p : Piece) (next : Option Piece) : List Layout :=
  if p.form = .lineBreak ∧ s.nesting = 0 then
    let ended := s.endLine (s.place.offset + 1)
    ended :: ended.skip p.text :: (ended.skip p.text).openTrace (width (p.text.drop 1)) next
  else [(s.step p next).1]

/-- The states of the end of a source. -/
def finishTrace (s : Layout) : List Layout :=
  let ended := s.endLine s.place.offset
  ended :: closings ended.widths.length ended ++ [s.finish]

/-- The states of the pieces up to the first error. -/
def runTrace (limit : Nat) : List Piece → Layout → List Layout
  | [], s => s.finishTrace
  | p :: ps, s =>
    s.stepTrace p ps.head? ++
      match s.step p ps.head? with
      | (_, some _) => []
      | (s, none) => if (overflow? limit s).isSome then [] else runTrace limit ps s

/-- The states of the pieces of a whole source. -/
def runAllTrace (limit : Nat) : List Piece → List Layout
  | [] => runTrace limit [] {}
  | p :: ps =>
    if p.form = .blank then
      let s := ({} : Layout).skip p.text
      s :: s.openTrace (width p.text) ps.head? ++
        match s.openLine (width p.text) ps.head? with
        | (_, some _) => []
        | (s, none) => runTrace limit ps s
    else runTrace limit (p :: ps) {}

theorem move_skip (s : Layout) (text : List Char) : Move s (s.skip text) := .pass rfl rfl

theorem move_endLine (s : Layout) (stop : Nat) : Move s (s.endLine stop) := by
  unfold endLine
  split
  · exact .pass rfl rfl
  · split
    · exact .pass rfl rfl
    · exact .token _ (by simp) rfl rfl

/-- Blocks close one by one. -/
theorem path_closings : (n : Nat) → (s : Layout) → n ≤ s.widths.length →
    Path s (closings n s) { s with
      widths := s.widths.drop n
      tokens := s.tokens ++ List.replicate n (dedentAt s.place) }
  | 0, s, _ => by simpa [closings] using Path.nil s
  | n + 1, s, hn => by
    cases hw : s.widths with
    | nil =>
      rw [hw] at hn
      cases hn
    | cons inner outer =>
      have hclose : s.close =
          { s with widths := outer, tokens := s.tokens.push (dedentAt s.place) } := by
        simp [close, mark, emit, dedentAt, hw]
      have hlen : n ≤ s.close.widths.length := by
        rw [hclose]
        rw [hw] at hn
        exact Nat.le_of_succ_le_succ hn
      have ih := path_closings n s.close hlen
      refine .cons (.closes (dedentAt s.place) rfl inner ?_ ?_) ?_
      · rw [hclose, hw]
      · rw [hclose]
      · rw [hclose] at ih ⊢
        simpa [replicate_succ] using ih

theorem path_openTrace (s : Layout) (width : Nat) (next : Option Piece) :
    Path s (s.openTrace width next) (s.openLine width next).1 := by
  unfold openTrace openLine
  split
  · split
    · next hw =>
      have hto : (s.indentTo width).1 = { s.mark .indent with widths := width :: s.widths } := by
        rw [indentTo, if_pos hw]
      rw [hto]
      exact .single (.opens _ rfl width hw rfl rfl)
    · next hw =>
      have hto : (s.indentTo width).1 = { s with
          widths := s.widths.drop (s.widths.takeWhile (width < ·)).length
          tokens := s.tokens ++
            List.replicate (s.widths.takeWhile (width < ·)).length (dedentAt s.place) } := by
        have hdrop : s.widths.dropWhile (width < ·) =
            s.widths.drop (s.widths.takeWhile (width < ·)).length := by
          have hsplit :
              s.widths.takeWhile (width < ·) ++ s.widths.dropWhile (width < ·) = s.widths :=
            takeWhile_append_dropWhile
          exact drop_left.symm.trans (congrArg (List.drop _) hsplit)
        rw [indentTo, if_neg hw, closeTo_eq, hdrop]
      rw [hto]
      exact path_closings _ s (takeWhile_sublist _).length_le
  · exact .nil s

/-- **A step is a path of moves.** -/
theorem path_stepTrace (s : Layout) {p : Piece} (hp : p.IsText) (next : Option Piece) :
    Path s (s.stepTrace p next) (s.step p next).1 := by
  unfold stepTrace
  split
  · next h =>
    have hstep : s.step p next =
        ((s.endLine (s.place.offset + 1)).skip p.text).openLine (width (p.text.drop 1)) next := by
      simp [step, h]
    rw [hstep]
    exact .cons (move_endLine ..) (.cons (move_skip ..) (path_openTrace ..))
  · next h =>
    refine .single ?_
    unfold step
    split
    iterate 3 exact move_skip s p.text
    · next hf =>
      have hn : 0 < s.nesting := Nat.pos_of_ne_zero fun hn => h ⟨hf, hn⟩
      rw [if_pos hn]
      exact move_skip s p.text
    · next kind lexeme hf =>
      have ht := hp kind lexeme hf
      refine .token _ ?_ rfl rfl
      refine ⟨?_, ?_, ?_⟩ <;> rintro rfl <;> cases ht
    · exact .pass rfl rfl

theorem path_finishTrace (s : Layout) : Path s s.finishTrace s.finish := by
  refine .cons (move_endLine ..) (.append (path_closings _ _ le_rfl) (.single ?_))
  refine .ends (eofAt s.place) rfl (drop_length ..) rfl (Array.ext' ?_)
  rw [toList_finish, Array.toList_push, Array.toList_appendList, (endLine_frame ..).1]

/-- **A run is a path of moves.** -/
theorem path_runTrace (limit : Nat) : {ps : List Piece} →
    (∀ p ∈ ps, p.IsText) → (s : Layout) →
    Path s (runTrace limit ps s) (s.run limit ps).1
  | [], _, s => path_finishTrace s
  | p :: ps, hp, s => by
    obtain ⟨hp, hps⟩ := forall_mem_cons.1 hp
    have hstep := path_stepTrace s hp ps.head?
    unfold runTrace run
    generalize s.step p ps.head? = r at hstep
    obtain ⟨u, _ | e⟩ := r
    · cases ho : overflow? limit u with
      | some e => simpa [ho] using hstep
      | none => simpa [ho] using hstep.append (path_runTrace limit hps u)
    · simpa using hstep

theorem path_runAll (limit : Nat) {ps : List Piece} (hp : ∀ p ∈ ps, p.IsText) :
    Path {} (runAllTrace limit ps) (runAll limit ps).1 := by
  cases ps with
  | nil => exact path_runTrace limit hp {}
  | cons p ps =>
    by_cases hb : p.form = .blank
    · have hskip := move_skip {} p.text
      have hopen := path_openTrace (({} : Layout).skip p.text) (width p.text) ps.head?
      rw [runAllTrace, runAll, if_pos hb, if_pos hb]
      dsimp only
      generalize (({} : Layout).skip p.text).openLine (width p.text) ps.head? = r at hopen
      obtain ⟨u, _ | e⟩ := r
      · exact .cons hskip (hopen.append (path_runTrace limit (forall_mem_cons.1 hp).2 u))
      · simpa using Path.cons hskip hopen
    · rw [runAllTrace, runAll, if_neg hb, if_neg hb]
      exact path_runTrace limit hp {}

end Layout

/-! ### Tokens of a source -/

/-- The states that the run over a source passes after its start. -/
def Token.lexTrace (limit : Nat) (source : List Char) : List Layout :=
  Layout.runAllTrace limit (Piece.split (Source.normalize source))

/-- **The levels of indentation rise from zero at every point of a run, and the tokens made so far
count them.** The points lie one move apart and end with the tokens of the source. Hence no
beginning of the tokens closes more blocks than it opens, with or without an error. Without an
error all blocks are closed, and the tokens end with the only end of input. -/
theorem Token.levels_lexTrace (limit : Nat) (source : List Char) :
    (∃ last, Layout.Path {} (lexTrace limit source) last ∧
      last.tokens.toList = (lex limit source).tokens) ∧
    (∀ s ∈ {} :: lexTrace limit source, s.levels.head? = some 0 ∧ s.levels.Pairwise (· < ·) ∧
      (s.levels.length : Int) - 1 = indents s.tokens.toList - dedents s.tokens.toList) ∧
    (∀ ts, ts <+: (lex limit source).tokens → dedents ts ≤ indents ts) ∧
    ((lex limit source).error = none →
      indents (lex limit source).tokens = dedents (lex limit source).tokens ∧
      ∃ ts eof, (lex limit source).tokens = ts ++ [eof] ∧ eof.kind = .eof ∧
        ∀ t ∈ ts, t.kind ≠ .eof) := by
  have htext : ∀ p ∈ Piece.split (Source.normalize source), p.IsText :=
    fun _ => Piece.isText_of_mem_split
  have hpath := Layout.path_runAll limit htext
  have hlevel := hpath.forall_of_move Layout.Levelled.move Layout.Levelled.initial
  refine ⟨⟨_, hpath, rfl⟩, fun s hs => ⟨rfl, (hlevel s hs).rising, (hlevel s hs).height⟩,
    fun ts hts => ?_, fun he => ⟨?_, ?_⟩⟩
  · obtain hnil | ⟨u, hu, rfl⟩ := hpath.exists_tokens_eq hts
    · rw [prefix_nil.1 hnil]
      exact le_rfl
    · exact (hlevel u (mem_cons_of_mem _ hu)).dedents_le
  · -- without an error the run has come to its end, where no width is left
    have hrun := Layout.runAll_of_limit (.inl rfl) he
    obtain ⟨s, -, hs⟩ := Layout.exists_finish (hrun ▸ he) htext
    refine (hlevel _ hpath.last_mem).indents_eq ?_
    rw [← hrun, hs]
    rfl
  · have hlex := lex_of_limit (.inl rfl) he
    rw [← hlex] at he ⊢
    exact exists_eof_of_lex he

/-- Two blocks, opened by a tab and by spaces, close together behind a blank line and a bracket that
spans lines. -/
theorem Token.levels_lexTrace_blocks :
    (lex 0 "if a\n\tif b\n        c(1,\n2)\n\n // d\ne\n".toList).error = none ∧
    indents (lex 0 "if a\n\tif b\n        c(1,\n2)\n\n // d\ne\n".toList).tokens =
      dedents (lex 0 "if a\n\tif b\n        c(1,\n2)\n\n // d\ne\n".toList).tokens ∧
    indents (lex 0 "if a\n\tif b\n        c(1,\n2)\n\n // d\ne\n".toList).tokens = 2 :=
  have he : (lex 0 "if a\n\tif b\n        c(1,\n2)\n\n // d\ne\n".toList).error = none := by
    with_unfolding_all decide
  ⟨he, ((levels_lexTrace 0 _).2.2.2 he).1, by with_unfolding_all decide⟩

end Pine
