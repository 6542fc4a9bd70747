import Pine.Proofs.Token.IdleLine

/-!
# Lines joined between brackets

Between brackets a newline is a blank. A piece in front of it that takes blanks takes the blank as
well, and any other piece ends in front of both, a comment to the end of the line apart. A layout
with open brackets skips line breaks and blanks alike, so from then on both texts are cut into the
same pieces and laid out in the same way.

## Main results

* `Piece.exists_split_joined`: cutting a text with a blank in place of a newline.
* `Layout.agree_runAll_joined`: between brackets, a blank in place of a line break.
* `Token.agrees_lex_joined`: a newline between brackets is a blank.
-/

namespace Pine

open List

/-! ### Cutting -/

/-- The pieces of a text in front of a newline, and those of the text with a blank instead: there is
one more, or the last one has become longer. -/
def Piece.Joined (qs qs' : List Piece) : Prop :=
  (∃ text, qs' = qs ++ [⟨.blank, text⟩]) ∨
    ∃ ps q text, (q.form = .blank ∨ q.form = .lineBreak) ∧ qs = ps ++ [q] ∧
      qs' = ps ++ [⟨q.form, text⟩]

namespace Piece

theorem split_space (ds : List Char) : split (' ' :: ds) =
    ⟨.blank, ' ' :: ds.take (run Source.isBlank ds)⟩ ::
      split (ds.drop (run Source.isBlank ds)) := by
  rw [split]
  rfl

/-- The pieces behind the first ones are those of the text behind them. -/
theorem split_of_split_append {qs rs : List Piece} {ds : List Char}
    (h : split (qs.flatMap text ++ ds) = qs ++ rs) : split ds = rs := by
  have happ := flatMap_text_split (qs.flatMap text ++ ds)
  rw [h, flatMap_append] at happ
  exact append_cancel_left happ ▸ split_right qs h

/-- **A text with a blank in place of a newline** is cut into the same pieces from the next one on,
unless the newline ends a comment. -/
theorem exists_split_joined {qs rs : List Piece} {p : Piece} {v : List Char}
    (h : split (qs.flatMap text ++ '\n' :: v) = qs ++ p :: rs)
    (hf : ∀ q ∈ qs, ∀ f, q.form ≠ .fault f) (hc : ∀ q ∈ qs.getLast?, q.form ≠ .lineComment) :
    ∃ qs', Joined qs qs' ∧ split (qs.flatMap text ++ ' ' :: v) = qs' ++ rs := by
  have hright := split_of_split_append h
  rw [split_newline] at hright
  obtain ⟨rfl, rfl⟩ := List.cons.inj hright
  by_cases hlast : ∀ q ∈ qs.getLast?, q.form.goesOn = false
  · refine ⟨_, .inl ⟨' ' :: v.take (run Source.isBlank v), rfl⟩, ?_⟩
    have hsplit : split (qs.flatMap text ++ ([] ++ '\n' :: v)) = qs ++ split ([] ++ '\n' :: v) := by
      rw [nil_append, h, split_newline]
    have hblank := split_blank v qs hsplit hf (.inr hlast)
    rw [nil_append] at hblank
    rw [hblank, split_space, append_assoc, singleton_append]
  · -- the last piece goes on with the blank, and with the blanks behind it
    obtain ⟨q, hq, hgoes⟩ : ∃ q ∈ qs.getLast?, q.form.goesOn = true := by simpa using hlast
    obtain ⟨ps, rfl⟩ := getLast?_eq_some_iff.1 hq
    have hform : q.form = .blank ∨ q.form = .lineBreak := by
      have hne := hc q hq
      cases hform : q.form with
      | blank => exact .inl rfl
      | lineBreak => exact .inr rfl
      | lineComment => exact absurd hform hne
      | _ => rw [hform] at hgoes; cases hgoes
    have htakes : q.form.takes = Source.isBlank := by
      rcases hform with hform | hform <;> rw [hform] <;> rfl
    refine ⟨_, .inr ⟨ps, q, q.text ++ ' ' :: v.take (run Source.isBlank v), hform, rfl, rfl⟩, ?_⟩
    rw [flatMap_append, flatMap_singleton, append_assoc] at h ⊢
    rw [append_assoc] at h
    have hq : split (q.text ++ '\n' :: v) = q :: split ('\n' :: v) := by
      rw [split_of_split_append h, split_newline, singleton_append]
    have hps : split (ps.flatMap text ++ (q.text ++ '\n' :: v)) =
        ps ++ split (q.text ++ '\n' :: v) := by
      rw [h, hq, split_newline, singleton_append]
    have hne : q.text ≠ [] := text_ne_nil hq
    rw [split_blank v ps hps (fun r hr => hf r (mem_append_left _ hr)) (.inl hne),
      split_goesOn hq hgoes, htakes, append_assoc, singleton_append]

end Piece

/-! ### Laying out -/

namespace Layout

open Piece (Joined)

/-- The last of the pieces that are fed. -/
theorem exists_feed_concat {after : Option Piece} {ps : List Piece} {q : Piece} {s s' : Layout}
    (h : s.feed after (ps ++ [q]) = (s', none)) :
    ∃ u, s.feed (some q) ps = (u, none) ∧ u.step q after = (s', none) := by
  induction ps generalizing s with
  | nil =>
    rw [nil_append, feed] at h
    refine ⟨s, rfl, ?_⟩
    split at h
    · cases h
    · next hstep =>
      cases h
      exact hstep
  | cons p ps ih =>
    have hnext : (ps ++ [q]).head?.or after = ps.head?.or (some q) := by
      cases ps <;> rfl
    rw [cons_append, feed, hnext] at h
    rw [feed]
    split at h
    · cases h
    · exact ih h

theorem exists_feedAll_concat {after : Option Piece} {ps : List Piece} {q : Piece} {s : Layout}
    (hps : ps ≠ []) (h : feedAll after (ps ++ [q]) = (s, none)) :
    ∃ u, feedAll (some q) ps = (u, none) ∧ u.step q after = (s, none) := by
  obtain ⟨p, ps, rfl⟩ := exists_cons_of_ne_nil hps
  have hnext : (ps ++ [q]).head?.or after = ps.head?.or (some q) := by
    cases ps <;> rfl
  rw [cons_append, feedAll, hnext] at h
  rw [feedAll]
  split at h
  · next hb =>
    rw [if_pos hb]
    split at h
    · cases h
    · exact exists_feed_concat h
  · next hb =>
    rw [if_neg hb]
    exact exists_feed_concat h

theorem step_of_nesting {s : Layout} (hn : 0 < s.nesting) {p : Piece}
    (hp : p.form = .blank ∨ p.form = .lineBreak) (next : Option Piece) :
    s.step p next = (s.skip p.text, none) := by
  unfold step
  rcases hp with hp | hp
  · rw [hp]
  · rw [hp]
    exact if_pos hn

theorem nesting_openLine (s : Layout) (width : Nat) (next : Option Piece) :
    (s.openLine width next).1.nesting = s.nesting := by
  unfold openLine indentTo
  split
  · split <;> rfl
  · rfl

theorem nesting_step {s : Layout} {p : Piece} (hp : p.form = .blank ∨ p.form = .lineBreak)
    (next : Option Piece) : (s.step p next).1.nesting = s.nesting := by
  unfold step
  rcases hp with hp | hp
  · rw [hp]
    rfl
  · rw [hp]
    dsimp only
    split
    · rfl
    · exact (nesting_openLine ..).trans (endLine_frame s _).2

/-- Blanks or a line break at the start of a source open no bracket. -/
theorem nesting_feedAll_singleton {after : Option Piece} {q : Piece} {s : Layout}
    (hq : q.form = .blank ∨ q.form = .lineBreak) (h : feedAll after [q] = (s, none)) :
    s.nesting = 0 := by
  rw [feedAll] at h
  split at h
  · have hnesting := nesting_openLine (({} : Layout).skip q.text) (width q.text) after
    split at h
    · cases h
    · next hopen =>
      cases h
      exact (congrArg (nesting ∘ Prod.fst) hopen).symm.trans hnesting
  · obtain ⟨u, hu, hstep⟩ := @exists_feed_concat after [] q {} s h
    cases hu
    have hnesting := nesting_step hq after (s := {})
    rw [hstep] at hnesting
    exact hnesting

/-- A line break between brackets only moves the place. -/
theorem runAll_lineBreak {qs : List Piece} {p : Piece} {s : Layout}
    (hs : feedAll (some p) qs = (s, none)) (hn : 0 < s.nesting) (hp : p.form = .lineBreak)
    (rs : List Piece) : runAll 0 (qs ++ p :: rs) = (s.skip p.text).run 0 rs := by
  have hhead : ∀ q ∈ (p :: rs).head?, q.form ≠ .blank := by
    rintro _ ⟨⟩ hblank
    cases hp.symm.trans hblank
  rw [runAll_append fun _ => hhead, head?_cons, hs]
  dsimp only
  rw [run_cons, step_of_nesting hn (.inr hp)]
  rfl

/-- **Between brackets, a blank in place of a line break** does not change a run. -/
theorem agree_runAll_joined {qs qs' rs : List Piece} {p : Piece} {s : Layout}
    (hs : feedAll (some p) qs = (s, none)) (hn : 0 < s.nesting) (hp : p.form = .lineBreak)
    (hq : Joined qs qs') : Agree (runAll 0 (qs ++ p :: rs)) (runAll 0 (qs' ++ rs)) := by
  have hstart : qs ≠ [] := by
    rintro rfl
    cases hs
    exact absurd hn (by decide)
  rw [runAll_lineBreak hs hn hp]
  obtain ⟨text, rfl⟩ | ⟨ps, q, text, hform, rfl, rfl⟩ := hq
  · have hcode : (some ⟨.blank, text⟩ : Option Piece).any isCode = (some p).any isCode := by
      rw [Option.any_some, Option.any_some, isCode, isCode, hp]
    rw [append_assoc, singleton_append, runAll_append fun hnil => absurd hnil hstart,
      head?_cons, feedAll_congr hcode, hs]
    dsimp only
    rw [run_cons, step_of_nesting hn (.inl rfl)]
    exact ((Alike.refl s).skip _ _).run rs
  · have hps : ps ≠ [] := by
      rintro rfl
      exact absurd (nesting_feedAll_singleton hform hs) (Nat.ne_of_gt hn)
    obtain ⟨u, hu, hstep⟩ := exists_feedAll_concat hps hs
    -- the brackets were open before the last piece, so it only moved the place
    have hopen : 0 < u.nesting := by
      rw [← nesting_step hform (some p), hstep]
      exact hn
    rw [step_of_nesting hopen hform] at hstep
    cases hstep
    have hcode : (some ⟨q.form, text⟩ : Option Piece).any isCode = (some q).any isCode := rfl
    rw [append_assoc, singleton_append, runAll_append fun hnil => absurd hnil hps,
      head?_cons, feedAll_congr hcode, hu]
    dsimp only
    rw [run_cons, step_of_nesting hopen (p := ⟨q.form, text⟩) hform]
    exact (((Alike.refl u).skip q.text text).skip p.text []).run rs

end Layout

/-! ### Sources -/

theorem Source.normalize_of_append {u v : List Char} {c : Char} (h : '\r' ∉ u ++ c :: v)
    (hc : c ≠ mark) : normalize (u ++ c :: v) = normalize u ++ c :: v := by
  have hdrop : dropMark (u ++ c :: v) = dropMark u ++ c :: v := by
    cases u with
    | nil => exact dropMark_eq_self fun h => hc (Option.some.inj h)
    | cons d u =>
      rw [cons_append, dropMark, dropMark]
      split <;> rfl
  have hmem {d : Char} {cs : List Char} (hd : d ∈ dropMark cs) : d ∈ cs := by
    cases cs with
    | nil => cases hd
    | cons e cs =>
      rw [dropMark] at hd
      split at hd
      · exact mem_cons_of_mem e hd
      · exact hd
  rw [normalize, normalize, unifyLineEnds_eq_self, unifyLineEnds_eq_self, hdrop]
  · exact fun hr => h (mem_append_left _ (hmem hr))
  · exact fun hr => h (hmem hr)

/-- **A newline between brackets is a blank.** The newline between `u` and `v` is the piece `p`; in
front of it `s` has open brackets, and no comment ends with it. Then the source with a blank in its
place has the same words or the same error. -/
theorem Token.agrees_lex_joined {u v : List Char} (hreturn : '\r' ∉ u ++ '\n' :: v)
    {qs rs : List Piece} {p : Piece} {s : Layout}
    (hsplit : Piece.split (Source.normalize (u ++ '\n' :: v)) = qs ++ p :: rs)
    (hu : qs.flatMap Piece.text = Source.normalize u)
    (hs : Layout.feedAll (some p) qs = (s, none)) (hnesting : 0 < s.nesting)
    (hcomment : ∀ q ∈ qs.getLast?, q.form ≠ .lineComment) :
    (Token.lex 0 (u ++ '\n' :: v)).Agrees (Token.lex 0 (u ++ ' ' :: v)) := by
  have hreturn' : '\r' ∉ u ++ ' ' :: v := by
    simpa using hreturn
  rw [Source.normalize_of_append hreturn (by decide), ← hu] at hsplit
  have hp : p.form = .lineBreak := by
    have hright := Piece.split_of_split_append hsplit
    rw [Piece.split_newline] at hright
    rw [← (List.cons.inj hright).1]
  have hfault : ∀ q ∈ qs, ∀ f, q.form ≠ .fault f := by
    have he := congrArg Prod.snd (Layout.runAll_lineBreak hs hnesting hp [])
    exact fun q hq => Layout.form_ne_fault_of_runAll he q (mem_append_left _ hq)
  obtain ⟨qs', hjoined, hsplit'⟩ := Piece.exists_split_joined hsplit hfault hcomment
  have hagree : Layout.Agree (Layout.runAll 0 (qs ++ p :: rs)) (Layout.runAll 0 (qs' ++ rs)) :=
    Layout.agree_runAll_joined hs hnesting hp hjoined
  rw [← hsplit, ← hsplit', hu, ← Source.normalize_of_append hreturn (by decide),
    ← Source.normalize_of_append hreturn' (by decide)] at hagree
  exact agrees_of_agree hagree

/-- An argument on a line of its own, behind a line with blanks at its end. -/
theorem Token.agrees_lex_joined_argument :
    let u := "x = f(a, ".toList
    let v := "  b)\n".toList
    let qs : List Piece := [⟨.token .identifier "x", ['x']⟩, ⟨.blank, [' ']⟩,
      ⟨.token .operator "=", ['=']⟩, ⟨.blank, [' ']⟩, ⟨.token .identifier "f", ['f']⟩,
      ⟨.token .lparen "(", ['(']⟩, ⟨.token .identifier "a", ['a']⟩, ⟨.token .comma ",", [',']⟩,
      ⟨.blank, [' ']⟩]
    let p : Piece := ⟨.lineBreak, ['\n', ' ', ' ']⟩
    0 < (Layout.feedAll (some p) qs).1.nesting ∧
      (Token.lex 0 (u ++ '\n' :: v)).Agrees (Token.lex 0 (u ++ ' ' :: v)) := by
  intro u v qs p
  have hsplit : Piece.split (Source.normalize (u ++ '\n' :: v)) = qs ++ p ::
      [⟨.token .identifier "b", ['b']⟩, ⟨.token .rparen ")", [')']⟩, ⟨.lineBreak, ['\n']⟩] := by
    with_unfolding_all decide
  have hnesting : 0 < (Layout.feedAll (some p) qs).1.nesting := by decide
  have hcomment : ∀ q ∈ qs.getLast?, q.form ≠ .lineComment := by decide
  exact ⟨hnesting, Token.agrees_lex_joined (by decide) hsplit (by decide) rfl hnesting hcomment⟩

end Pine
