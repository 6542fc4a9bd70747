import Pine.Proofs.Token.Alike
import Pine.Proofs.Token.Blank

/-!
# Lines without code

A line of blanks, with or without a comment to its end, is invisible. The newline in front of it
ends the line before, and the newline at its end finds the line ended. Neither of the two opens or
closes a block, because the indentation of a line counts only if code follows it, and between
brackets both are skipped. So the line may stand in front of a source, behind any line of it, in a
block, between brackets or at the end.

## Main results

* `Piece.exists_split_append`: what follows a text that ends with a newline reaches the pieces of
  the text only at that newline.
* `Layout.agree_run_idleLine`: a line without code does not change a run.
* `Token.agrees_lex_idleLine`: a line without code is invisible.
-/

namespace Pine

open List

/-- The same words, and the same error apart from its place. -/
structure Lexed.Agrees (l l' : Lexed) : Prop where
  words : l'.tokens.map Token.word = l.tokens.map Token.word
  error : l'.error.map LexError.detail = l.error.map LexError.detail

/-- A line of spaces and tabs, with or without a comment to its end. -/
inductive Source.IdleLine : List Char → Prop where
  | blank {blanks : List Char} (h : ∀ c ∈ blanks, isBlank c = true) : IdleLine (blanks ++ ['\n'])
  | remark {blanks text : List Char} (h : ∀ c ∈ blanks, isBlank c = true) (hnewline : '\n' ∉ text)
      (hreturn : '\r' ∉ text) : IdleLine (blanks ++ '/' :: '/' :: (text ++ ['\n']))

namespace Source.IdleLine

variable {w : List Char}

theorem return_notMem (h : IdleLine w) : '\r' ∉ w := by
  intro hmem
  cases h with
  | blank hblanks =>
    rcases mem_append.1 hmem with hmem | hmem
    · exact absurd (hblanks _ hmem) (by decide)
    · exact absurd hmem (by decide)
  | remark hblanks _ hreturn =>
    rcases mem_append.1 hmem with hmem | hmem
    · exact absurd (hblanks _ hmem) (by decide)
    · simp [hreturn] at hmem

theorem head?_ne_mark (h : IdleLine w) (ds : List Char) : (w ++ ds).head? ≠ some mark := by
  have hblanks {blanks es : List Char} (hblanks : ∀ c ∈ blanks, isBlank c = true)
      (hes : es.head? ≠ some mark) : (blanks ++ es).head? ≠ some mark := by
    cases blanks with
    | nil => exact hes
    | cons c blanks =>
      intro hhead
      obtain rfl := Option.some.inj hhead
      exact absurd (hblanks _ (mem_cons_self ..)) (by decide)
  cases h with
  | blank h =>
    rw [append_assoc]
    exact hblanks h fun hhead => absurd (Option.some.inj hhead) (by decide)
  | remark h _ _ =>
    rw [append_assoc]
    exact hblanks h fun hhead => absurd (Option.some.inj hhead) (by decide)

end Source.IdleLine

/-! ### Cutting behind a newline -/

namespace Piece

theorem split_newline (ds : List Char) : split ('\n' :: ds) =
    ⟨.lineBreak, '\n' :: ds.take (run Source.isBlank ds)⟩ ::
      split (ds.drop (run Source.isBlank ds)) := by
  rw [split]
  rfl

/-- **What follows a text that ends with a newline** reaches the pieces of the text only at that
newline, which goes on with blanks. -/
theorem exists_split_append {cs : List Char} (h : EndsLine cs)
    (hf : ∀ p ∈ split cs, ∀ f, p.form ≠ .fault f) :
    ∃ ps, ∀ ds, split (cs ++ ds) = ps ++ split ('\n' :: ds) := by
  fun_induction split cs with
  | case1 => cases h
  | case2 c cs form more hm ih =>
    have hform : ∀ f, (classify c cs).1 ≠ .fault f := by
      simpa [hm] using hf _ (mem_cons_self ..)
    by_cases hlast : c = '\n' ∧ cs = []
    · obtain ⟨rfl, rfl⟩ := hlast
      exact ⟨[], fun ds => rfl⟩
    · have hcut : EndsLine cs ∧ ∀ ds, classify c (cs ++ ds) = (form, more) ∧ more < cs.length := by
        by_cases hc : c = '\n'
        · obtain ⟨d, cs, rfl⟩ := exists_cons_of_ne_nil fun hnil => hlast ⟨hc, hnil⟩
          have hcs := EndsLine.cons_cons_iff.1 h
          subst hc
          cases hm
          refine ⟨hcs, fun ds => ⟨?_, run_lt hcs (by decide)⟩⟩
          rw [classify, if_pos rfl, run_append hcs (by decide)]
        · refine ⟨h.tail hc, fun ds => ?_⟩
          rw [← hm]
          have hclass := classify_append_of_ne h hc hform ds
          rwa [hm] at hclass ⊢
      obtain ⟨hcs, hcut⟩ := hcut
      have hlt := (hcut []).2
      obtain ⟨ps, hps⟩ := ih (hcs.drop hlt) fun p hp => hf p (mem_cons_of_mem _ hp)
      refine ⟨⟨form, c :: cs.take more⟩ :: ps, fun ds => ?_⟩
      rw [cons_append, split, (hcut ds).1]
      dsimp only
      rw [take_append_of_le_length (Nat.le_of_lt hlt),
        drop_append_of_le_length (Nat.le_of_lt hlt), hps, cons_append]

/-- A newline takes the blanks behind it. -/
theorem split_newline_blanks {blanks ds : List Char}
    (hblanks : ∀ c ∈ blanks, Source.isBlank c = true) (hd : Avoids Source.isBlank ds) :
    split ('\n' :: (blanks ++ ds)) = ⟨.lineBreak, '\n' :: blanks⟩ :: split ds := by
  have hrun : run Source.isBlank (blanks ++ ds) = blanks.length := by
    rw [run_append_of_avoids hd, run_eq_length hblanks]
  rw [split_newline, hrun, take_left, drop_left]

/-- A comment ends in front of the newline. -/
theorem split_lineComment {text : List Char} (h : '\n' ∉ text) (ds : List Char) :
    split ('/' :: '/' :: (text ++ '\n' :: ds)) =
      ⟨.lineComment, '/' :: '/' :: text⟩ :: split ('\n' :: ds) := by
  have htext : ∀ c ∈ '/' :: text, decide (c ≠ '\n') = true := by
    intro c hc
    refine decide_eq_true ?_
    rintro rfl
    exact (mem_cons.1 hc).elim (by decide) h
  have hclass : classify '/' ('/' :: text ++ '\n' :: ds) =
      (.lineComment, ('/' :: text).length) := by
    rw [← run_eq_length htext, ← run_append_of_avoids (avoids_newline (by decide) ds)]
    rfl
  rw [split, ← cons_append, hclass]
  dsimp only
  rw [take_left, drop_left]

end Piece

namespace Layout

open Piece (split)

/-! ### Looking ahead -/

/-- The first pieces look at what comes after them only to see whether it is code. -/
theorem feed_congr {after after' : Option Piece} (h : after.any isCode = after'.any isCode)
    (ps : List Piece) (s : Layout) : s.feed after ps = s.feed after' ps := by
  induction ps generalizing s with
  | nil => rfl
  | cons p ps ih =>
    have hnext : (ps.head?.or after).any isCode = (ps.head?.or after').any isCode := by
      cases ps with
      | nil => exact h
      | cons q ps => rfl
    rw [feed, feed, step_congr hnext]
    generalize s.step p (ps.head?.or after') = r
    obtain ⟨u, e⟩ := r
    cases e with
    | some e => rfl
    | none => exact ih u

theorem feedAll_congr {after after' : Option Piece} (h : after.any isCode = after'.any isCode)
    (ps : List Piece) : feedAll after ps = feedAll after' ps := by
  cases ps with
  | nil => rfl
  | cons p ps =>
    have hnext : (ps.head?.or after).any isCode = (ps.head?.or after').any isCode := by
      cases ps with
      | nil => exact h
      | cons q ps => rfl
    have hopen (s : Layout) (width : Nat) : s.openLine width (ps.head?.or after) =
        s.openLine width (ps.head?.or after') := by
      rw [openLine, openLine, hnext]
    rw [feedAll, feedAll, hopen]
    simp only [feed_congr h]

/-! ### Lines without code -/

/-- A line break in front of no code ends the line, and a second line break then does what the
first one would have done. -/
theorem exists_step_lineBreak (s : Layout) {p : Piece} (hp : p.form = .lineBreak)
    {next : Option Piece} (hnext : next.any isCode = false) :
    ∃ u, s.step p next = (u, none) ∧ ∀ q, q.form = .lineBreak → ∀ u' next', u.Alike u' →
      Agree (s.step q next') (u'.step q next') := by
  unfold step
  rw [hp]
  dsimp only
  by_cases hn : 0 < s.nesting
  · rw [if_pos hn]
    refine ⟨s.skip p.text, rfl, fun q hq u' next' h => ?_⟩
    have hsame : s.Alike u' := ((Alike.refl s).skip [] p.text).trans h
    exact hsame.step q next'
  · rw [if_neg hn, openLine, hnext, if_neg Bool.false_ne_true]
    refine ⟨_, rfl, fun q hq u' next' h => ?_⟩
    have hended : ((s.endLine (s.place.offset + 1)).skip p.text).endLine 0 =
        (s.endLine (s.place.offset + 1)).skip p.text :=
      endLine_eq_self (s := (s.endLine _).skip p.text) (kind_back?_endLine s _) 0
    have hu' := h.endLine 0 (u'.place.offset + 1)
    rw [hended] at hu'
    have hnesting : ¬0 < u'.nesting := by
      rw [h.nesting]
      exact (endLine_frame s _).2 ▸ hn
    rw [hq]
    dsimp only
    rw [if_neg hn, if_neg hnesting]
    have hsame : (s.endLine (s.place.offset + 1)).Alike (u'.endLine (u'.place.offset + 1)) :=
      ((Alike.refl _).skip [] p.text).trans hu'
    exact (hsame.skip q.text q.text).openLine _ next'

theorem any_isCode_split_newline (ds : List Char) :
    (split ('\n' :: ds)).head?.any isCode = false := by
  rw [Piece.split_newline]
  rfl

/-- **A line without code does not change a run.** -/
theorem agree_run_idleLine {w : List Char} (hw : Source.IdleLine w) (s : Layout)
    (ds : List Char) :
    Agree (s.run 0 (split ('\n' :: ds))) (s.run 0 (split ('\n' :: (w ++ ds)))) := by
  have hnext := any_isCode_split_newline ds
  -- the line break at the end of the line, in a layout that has seen the one in front of it
  have hlast {u u' : Layout} (hu : ∀ q, q.form = .lineBreak → ∀ u' next', u.Alike u' →
      Agree (s.step q next') (u'.step q next')) (h : u.Alike u') :
      Agree (s.run 0 (split ('\n' :: ds))) (u'.run 0 (split ('\n' :: ds))) := by
    rw [Piece.split_newline, run_cons, run_cons]
    exact (hu _ rfl u' _ h).andThen fun _ _ h => h.run _
  cases hw with
  | @blank blanks hblanks =>
    obtain ⟨u, hstep, hu⟩ := exists_step_lineBreak s
      (rfl : (Piece.mk .lineBreak ('\n' :: blanks)).form = .lineBreak) hnext
    rw [append_assoc, singleton_append,
      Piece.split_newline_blanks hblanks (Piece.avoids_newline (by decide) ds), run_cons, hstep]
    exact hlast hu (.refl u)
  | @remark blanks text hblanks hnewline _ =>
    have hslash : Piece.Avoids Source.isBlank ('/' :: '/' :: (text ++ '\n' :: ds)) := by
      rintro _ ⟨⟩
      rfl
    obtain ⟨u, hstep, hu⟩ := exists_step_lineBreak s
      (rfl : (Piece.mk .lineBreak ('\n' :: blanks)).form = .lineBreak)
      (rfl : (some (Piece.mk .lineComment ('/' :: '/' :: text))).any isCode = false)
    rw [append_assoc, cons_append, cons_append, append_assoc,
      singleton_append, Piece.split_newline_blanks hblanks hslash,
      Piece.split_lineComment hnewline, run_cons, head?_cons, hstep]
    exact hlast hu ((Alike.refl u).skip [] _)

/-! ### The newline in front -/

theorem openLine_zero {s : Layout} (h : s.widths = []) (next : Option Piece) :
    s.openLine 0 next = (s, none) := by
  obtain ⟨place, widths, nesting, tokens⟩ := s
  obtain rfl : widths = [] := h
  unfold openLine
  split <;> rfl

/-- **A source is laid out as if a newline stood in front of it.** -/
theorem agree_run_newline (cs : List Char) :
    Agree (({} : Layout).run 0 (split ('\n' :: cs))) (runAll 0 (split cs)) := by
  rw [Piece.split_newline, run_cons]
  by_cases hblank : cs.head?.any Source.isBlank = true
  · -- the blanks in front of a source are an indentation, as those behind a newline are
    obtain ⟨c, hc, hb⟩ := (Option.any_eq_true ..).1 hblank
    obtain ⟨ds, rfl⟩ := head?_eq_some_iff.1 hc
    have hline : c ≠ '\n' := by
      rintro rfl
      cases hb
    have hclass : Piece.classify c ds = (.blank, Piece.run Source.isBlank ds) := by
      rw [Piece.classify, if_neg hline, if_pos hb]
    have hrun : Piece.run Source.isBlank (c :: ds) = Piece.run Source.isBlank ds + 1 := by
      rw [Piece.run, takeWhile_cons_of_pos hb]
      rfl
    rw [hrun, take_succ_cons, drop_succ_cons, split, hclass, runAll_blank]
    generalize c :: ds.take (Piece.run Source.isBlank ds) = blanks
    generalize split (ds.drop (Piece.run Source.isBlank ds)) = ps
    have hopen := ((Alike.refl {}).skip ('\n' :: blanks) blanks).openLine (width blanks) ps.head?
    exact hopen.andThen fun _ _ h => h.run ps
  · have hrun : Piece.run Source.isBlank cs = 0 := by
      cases cs with
      | nil => rfl
      | cons c cs =>
        have hb : ¬Source.isBlank c = true := hblank
        exact congrArg List.length (takeWhile_cons_of_neg hb)
    have hhead : ∀ p ∈ (split cs).head?, p.form ≠ .blank := by
      cases cs with
      | nil =>
        rw [split]
        rintro _ ⟨⟩
      | cons c cs =>
        rw [split]
        rintro _ ⟨⟩ hform
        exact hblank (Piece.isBlank_of_classify hform)
    have hstart : runAll 0 (split cs) = run 0 (split cs) {} :=
      @runAll_append [] (split cs) fun _ => hhead
    have hstep : ({} : Layout).step ⟨.lineBreak, ['\n']⟩ (split cs).head? =
        (({} : Layout).skip ['\n'], none) := openLine_zero rfl _
    rw [hrun, hstart, take_zero, drop_zero, hstep]
    exact Alike.run (split cs) ((Alike.refl {}).skip ['\n'] [])

/-- **What follows a text that ends with a newline** is laid out behind that newline. -/
theorem exists_agree_runAll_append {cs : List Char}
    (h : cs = [] ∨ Piece.EndsLine cs ∧ (runAll 0 (split cs)).2 = none) :
    ∃ s : Layout, ∀ ds, Agree (s.run 0 (split ('\n' :: ds))) (runAll 0 (split (cs ++ ds))) := by
  obtain rfl | ⟨hline, he⟩ := h
  · exact ⟨{}, agree_run_newline⟩
  · obtain ⟨ps, hps⟩ := Piece.exists_split_append hline (form_ne_fault_of_runAll he)
    have hhead (ds : List Char) : ∀ r ∈ (split ('\n' :: ds)).head?, r.form ≠ .blank := by
      rw [Piece.split_newline]
      rintro _ ⟨⟩
      rintro ⟨⟩
    -- what follows starts with a line break, which is not code
    have hfeed (ds : List Char) : feedAll (split ('\n' :: ds)).head? ps = feedAll none ps :=
      feedAll_congr (any_isCode_split_newline ds) ps
    cases hstate : feedAll none ps with
    | mk s e =>
      cases e with
      | some e =>
        rw [← List.append_nil cs, hps, runAll_append fun _ => hhead [], hfeed, hstate] at he
        cases he
      | none =>
        refine ⟨s, fun ds => ?_⟩
        rw [hps, runAll_append fun _ => hhead ds, hfeed, hstate]
        exact .refl _

end Layout

/-! ### Sources -/

namespace Token

theorem agrees_of_agree {cs ds : List Char}
    (h : Layout.Agree (Layout.runAll 0 (Piece.split (Source.normalize cs)))
      (Layout.runAll 0 (Piece.split (Source.normalize ds)))) :
    (lex 0 cs).Agrees (lex 0 ds) := by
  have hdetail (e : Option LexError) : e.map LexError.detail =
      (e.map LexError.cause).map fun cause => LexError.detail ⟨cause, 0, 0⟩ := by
    rw [Option.map_map]
    rfl
  refine ⟨h.alike.words, ?_⟩
  rw [hdetail, hdetail]
  exact congrArg _ h.cause

/-- **A line without code is invisible**, whether it stands in front of a source or behind a line of
it. -/
theorem agrees_lex_idleLine {a b w : List Char}
    (ha : a = [] ∨ Piece.EndsLine a ∧ (lex 0 a).error = none) (hw : Source.IdleLine w)
    (hreturn : '\r' ∉ a ++ b) (hmark : Source.mark ∉ a ++ b) :
    (lex 0 (a ++ b)).Agrees (lex 0 (a ++ w ++ b)) := by
  have hnormal {cs : List Char} (hcs : ∀ c ∈ cs, c ∈ a ++ b) : Source.normalize cs = cs :=
    Source.normalize_eq_self (fun h => hmark (hcs _ (mem_of_head? h))) fun h =>
      hreturn (hcs _ h)
  have hstart : a = [] ∨ Piece.EndsLine a ∧ (Layout.runAll 0 (Piece.split a)).2 = none := by
    refine ha.imp_right fun h => ⟨h.1, ?_⟩
    have he := h.2
    unfold lex at he
    rwa [hnormal fun c hc => mem_append_left b hc] at he
  have hline : Source.normalize (a ++ (w ++ b)) = a ++ (w ++ b) := by
    refine Source.normalize_eq_self ?_ ?_
    · cases a with
      | nil => exact hw.head?_ne_mark b
      | cons c a => exact fun h => hmark (Option.some.inj h ▸ mem_cons_self ..)
    · rw [mem_append, not_or] at hreturn
      simp [hreturn, hw.return_notMem]
  obtain ⟨s, hs⟩ := Layout.exists_agree_runAll_append hstart
  refine agrees_of_agree ?_
  rw [append_assoc, hline, hnormal fun c hc => hc]
  exact (hs b).symm.trans ((Layout.agree_run_idleLine hw s b).trans (hs (w ++ b)))

/-- A comment that is indented more than the block around it, between two lines of the block. -/
theorem agrees_lex_idleLine_block :
    let a := "if a\n    b\n".toList
    let b := "    c\nd".toList
    let w := "\t      // x = (\n".toList
    (a = [] ∨ Piece.EndsLine a ∧ (lex 0 a).error = none) ∧ Source.IdleLine w ∧ '\r' ∉ a ++ b ∧
      Source.mark ∉ a ++ b ∧ (lex 0 (a ++ b)).Agrees (lex 0 (a ++ w ++ b)) := by
  intro a b w
  have ha : a = [] ∨ Piece.EndsLine a ∧ (lex 0 a).error = none :=
    .inr ⟨by unfold Piece.EndsLine; decide, by with_unfolding_all decide⟩
  have hblanks : ∀ c ∈ "\t      ".toList, Source.isBlank c = true :=
    all_eq_true.1 (by decide)
  have hw : Source.IdleLine w :=
    @Source.IdleLine.remark _ " x = (".toList hblanks (by decide) (by decide)
  have hreturn : '\r' ∉ a ++ b := by decide
  have hmark : Source.mark ∉ a ++ b := by decide
  exact ⟨ha, hw, hreturn, hmark, agrees_lex_idleLine ha hw hreturn hmark⟩

end Token

end Pine
