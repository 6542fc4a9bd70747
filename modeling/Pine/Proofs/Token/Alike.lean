import Pine.Proofs.Token.Join
import Pine.Proofs.Tree.Spelling

/-!
# Layouts apart from their places

What a layout does with the next piece depends on the open widths, on the nesting and on the last
token, and not on the place. Two layouts that agree on these make the same words of the same
pieces, wherever they stand in their texts.

A token that stands for text comes from a piece, and the piece in front of it may be written with
other text: if it is a line break, then the indentation behind it counts only when the next piece
is code, and a token that follows neither the opening nor the closing of a block shows that the
indentation was that of the open block.
-/

namespace Pine

open List

/-- The same pieces up to the text of the last one; where there were none, a blank. -/
def Piece.Repadded (qs qs' : List Piece) : Prop :=
  (qs = [] ∧ ∃ text, qs' = [⟨.blank, text⟩]) ∨
    ∃ ps q text, qs = ps ++ [q] ∧ qs' = ps ++ [⟨q.form, text⟩]

namespace Layout

/-! ### Alike layouts -/

/-- The layouts differ in places only. -/
structure Alike (s s' : Layout) : Prop where
  widths : s'.widths = s.widths
  nesting : s'.nesting = s.nesting
  words : s'.tokens.toList.map Token.word = s.tokens.toList.map Token.word

/-- The layouts are alike, and the errors differ in places only. -/
structure Agree (r r' : Layout × Option LexError) : Prop where
  alike : r.1.Alike r'.1
  cause : r'.2.map LexError.cause = r.2.map LexError.cause

namespace Alike

variable {s s' s'' : Layout}

theorem refl (s : Layout) : s.Alike s := ⟨rfl, rfl, rfl⟩

theorem trans (h : s.Alike s') (h' : s'.Alike s'') : s.Alike s'' :=
  ⟨h'.widths.trans h.widths, h'.nesting.trans h.nesting, h'.words.trans h.words⟩

theorem symm (h : s.Alike s') : s'.Alike s := ⟨h.widths.symm, h.nesting.symm, h.words.symm⟩

theorem skip (h : s.Alike s') (text text' : List Char) : (s.skip text).Alike (s'.skip text') :=
  ⟨h.widths, h.nesting, h.words⟩

theorem words_push (h : s.Alike s') {t t' : Token} (ht : t'.word = t.word) :
    (s'.tokens.push t').toList.map Token.word = (s.tokens.push t).toList.map Token.word := by
  rw [Array.toList_push, Array.toList_push, map_append, map_append, h.words,
    map_singleton, map_singleton, ht]

theorem emit (h : s.Alike s') (kind : Token.Kind) (lexeme : String) (stop stop' : Place) :
    (s.emit kind lexeme stop).Alike (s'.emit kind lexeme stop') :=
  ⟨h.widths, h.nesting, h.words_push rfl⟩

theorem back? (h : s.Alike s') :
    s'.tokens.back?.map Token.word = s.tokens.back?.map Token.word := by
  rw [← Array.getLast?_toList, ← Array.getLast?_toList, ← getLast?_map, ← getLast?_map,
    h.words]

theorem endLine (h : s.Alike s') (stop stop' : Nat) :
    (s.endLine stop).Alike (s'.endLine stop') := by
  have hb := h.back?
  unfold Layout.endLine
  cases hs : s.tokens.back? with
  | none =>
    rw [hs, Option.map_none, Option.map_eq_none_iff] at hb
    rw [hb]
    exact h
  | some t =>
    rw [hs, Option.map_some] at hb
    obtain ⟨t', ht', hw⟩ := Option.map_eq_some_iff.1 hb
    have hkind : t'.kind = t.kind := congrArg Prod.fst hw
    rw [ht']
    dsimp only
    rw [hkind]
    split
    · exact h
    · exact ⟨h.widths, h.nesting, h.words_push rfl⟩

theorem indentTo (h : s.Alike s') (width : Nat) :
    Agree (s.indentTo width) (s'.indentTo width) := by
  have ht : s'.top = s.top := by rw [top, top, h.widths]
  unfold Layout.indentTo
  rw [ht]
  split
  · exact ⟨⟨congrArg (width :: ·) h.widths, h.nesting, h.words_push rfl⟩, rfl⟩
  · rw [closeTo_eq, closeTo_eq, h.widths]
    refine ⟨⟨rfl, h.nesting, ?_⟩, ?_⟩
    · rw [Array.toList_appendList, Array.toList_appendList, map_append, map_append,
        h.words, map_replicate, map_replicate]
      rfl
    · dsimp only
      rw [apply_ite (Option.map _), apply_ite (Option.map _)]
      rfl

theorem openLine (h : s.Alike s') (width : Nat) (next : Option Piece) :
    Agree (s.openLine width next) (s'.openLine width next) := by
  unfold Layout.openLine
  split
  · exact h.indentTo width
  · exact ⟨h, rfl⟩

/-- **A step keeps layouts alike.** -/
theorem step (h : s.Alike s') (p : Piece) (next : Option Piece) :
    Agree (s.step p next) (s'.step p next) := by
  unfold Layout.step
  rw [h.nesting]
  split
  iterate 3 exact ⟨h.skip p.text p.text, rfl⟩
  · split
    · exact ⟨h.skip p.text p.text, rfl⟩
    · exact ((h.endLine _ _).skip p.text p.text).openLine _ next
  · next kind lexeme _ =>
    have he := h.emit kind lexeme (s.place.after p.text) (s'.place.after p.text)
    exact ⟨⟨he.widths, rfl, he.words⟩, rfl⟩
  · exact ⟨h, rfl⟩

theorem finish (h : s.Alike s') : s.finish.Alike s'.finish := by
  have he := h.endLine s.place.offset s'.place.offset
  refine ⟨rfl, ?_, ?_⟩
  · unfold Layout.finish
    dsimp only
    rw [foldl_mark, foldl_mark]
    exact he.nesting
  · rw [toList_finish, toList_finish, he.widths]
    simp only [map_append, map_replicate, he.words]
    rfl

end Alike

/-- What comes after a state, unless an error came before. -/
def andThen (r : Layout × Option LexError) (f : Layout → Layout × Option LexError) :
    Layout × Option LexError :=
  match r with
  | (s, some e) => (s, some e)
  | (s, none) => f s

theorem run_cons (s : Layout) (p : Piece) (ps : List Piece) :
    s.run 0 (p :: ps) = andThen (s.step p ps.head?) (run 0 ps) := by
  rw [run]
  generalize s.step p ps.head? = r
  obtain ⟨u, e⟩ := r
  cases e <;> rfl

theorem runAll_blank (text : List Char) (ps : List Piece) : runAll 0 (⟨.blank, text⟩ :: ps) =
    andThen ((({} : Layout).skip text).openLine (width text) ps.head?) (run 0 ps) := rfl

namespace Agree

variable {r r' r'' : Layout × Option LexError}

theorem refl (r : Layout × Option LexError) : Agree r r := ⟨.refl r.1, rfl⟩

theorem symm (h : Agree r r') : Agree r' r := ⟨h.alike.symm, h.cause.symm⟩

theorem trans (h : Agree r r') (h' : Agree r' r'') : Agree r r'' :=
  ⟨h.alike.trans h'.alike, h'.cause.trans h.cause⟩

theorem error_eq_none (h : Agree r r') (he : r.2 = none) : r'.2 = none := by
  have hcause := h.cause
  rwa [he, Option.map_none, Option.map_eq_none_iff] at hcause

theorem andThen (h : Agree r r') {f f' : Layout → Layout × Option LexError}
    (hf : ∀ s s', s.Alike s' → Agree (f s) (f' s')) : Agree (andThen r f) (andThen r' f') := by
  obtain ⟨s, e⟩ := r
  obtain ⟨s', e'⟩ := r'
  cases e with
  | some e =>
    obtain ⟨e', rfl, -⟩ := Option.map_eq_some_iff.1 h.cause
    exact h
  | none =>
    obtain rfl : e' = none := h.error_eq_none rfl
    exact hf s s' h.alike

end Agree

/-- **A run keeps layouts alike.** -/
theorem Alike.run (ps : List Piece) {s s' : Layout} (h : s.Alike s') :
    Agree (s.run 0 ps) (s'.run 0 ps) := by
  induction ps generalizing s s' with
  | nil => exact ⟨h.finish, rfl⟩
  | cons p ps ih =>
    rw [run_cons, run_cons]
    exact (h.step p ps.head?).andThen fun _ _ => ih

/-! ### The first pieces of a source -/

/-- The first pieces of a source up to the first error, with a look at what comes after them. -/
def feedAll (after : Option Piece) : List Piece → Layout × Option LexError
  | [] => ({}, none)
  | p :: ps =>
    if p.form = .blank then
      match (({} : Layout).skip p.text).openLine (width p.text) (ps.head?.or after) with
      | (s, some e) => (s, some e)
      | (s, none) => feed after ps s
    else feed after (p :: ps) {}

theorem runAll_append {qs rs : List Piece} (h : qs = [] → ∀ r ∈ rs.head?, r.form ≠ .blank) :
    runAll 0 (qs ++ rs) =
      match feedAll rs.head? qs with
      | (s, some e) => (s, some e)
      | (s, none) => run 0 rs s := by
  cases qs with
  | nil =>
    cases rs with
    | nil => rfl
    | cons r rs => exact if_neg (h rfl r rfl)
  | cons q qs =>
    rw [cons_append, runAll, feedAll]
    split
    · rw [List.head?_append]
      cases (({} : Layout).skip q.text).openLine (width q.text) (qs.head?.or rs.head?) with
      | mk s e =>
        cases e with
        | some e => rfl
        | none => exact run_append rs qs s
    · exact run_append rs (q :: qs) {}

/-- A run without an error is a run over all pieces and the end of the source behind them. -/
theorem exists_feedAll {ps : List Piece} (he : (runAll 0 ps).2 = none) :
    ∃ s, feedAll none ps = (s, none) ∧ runAll 0 ps = (s.finish, none) := by
  have hrun := @runAll_append ps [] fun _ => nofun
  rw [List.append_nil, head?_nil] at hrun
  generalize feedAll none ps = r at hrun
  obtain ⟨s, e⟩ := r
  cases e with
  | none => exact ⟨s, rfl, hrun⟩
  | some e =>
    rw [hrun] at he
    cases he

theorem place_feedAll {after : Option Piece} {ps : List Piece} {s : Layout}
    (h : feedAll after ps = (s, none)) : s.place = Place.first.after (ps.flatMap Piece.text) := by
  cases ps with
  | nil =>
    cases h
    rfl
  | cons p ps =>
    rw [feedAll] at h
    split at h
    · split at h
      · cases h
      · next u hu =>
        have hp := place_openLine (({} : Layout).skip p.text) (width p.text) (ps.head?.or after)
        rw [hu] at hp
        rw [place_feed ps h, hp, flatMap_cons, Place.after_append]
        rfl
    · exact place_feed (p :: ps) h

/-! ### The piece of a token -/

/-- The second layout has more tokens, and none of them stands for text. -/
def AddsLines (s s' : Layout) : Prop :=
  ∃ ts, s'.tokens.toList = s.tokens.toList ++ ts ∧ ∀ t ∈ ts, t.kind.isText = false

/-- The second layout has more tokens, which stand for no text and at the place of the first. -/
def AddsHere (s s' : Layout) : Prop :=
  ∃ ts, s'.tokens.toList = s.tokens.toList ++ ts ∧
    ∀ t ∈ ts, t.kind.isText = false ∧ t.line = s.place.line ∧ t.column = s.place.column

namespace AddsHere

variable {s s' : Layout}

theorem addsLines (h : s.AddsHere s') : s.AddsLines s' :=
  h.imp fun _ => .imp_right fun ht t hmem => (ht t hmem).1

theorem of_eq (h : s'.tokens = s.tokens) : s.AddsHere s' := ⟨[], by simp [h], nofun⟩

theorem of_push {t : Token} (h : s'.tokens = s.tokens.push t)
    (ht : t.kind.isText = false ∧ t.line = s.place.line ∧ t.column = s.place.column) :
    s.AddsHere s' :=
  ⟨[t], by rw [h, Array.toList_push], fun u hu => by rwa [mem_singleton.1 hu]⟩

theorem endLine (s : Layout) (stop : Nat) : s.AddsHere (s.endLine stop) := by
  unfold Layout.endLine
  split
  · exact of_eq rfl
  · split
    · exact of_eq rfl
    · exact of_push rfl ⟨rfl, rfl, rfl⟩

theorem openLine (s : Layout) (width : Nat) (next : Option Piece) :
    s.AddsHere (s.openLine width next).1 := by
  unfold Layout.openLine Layout.indentTo
  split
  · split
    · exact of_push rfl ⟨rfl, rfl, rfl⟩
    · rw [closeTo_eq]
      refine ⟨_, Array.toList_appendList, fun t ht => ?_⟩
      rw [eq_of_mem_replicate ht]
      exact ⟨rfl, rfl, rfl⟩
  · exact of_eq rfl

theorem finish (s : Layout) : s.AddsHere s.finish := by
  obtain ⟨ts, ht, hk⟩ := endLine s s.place.offset
  refine ⟨ts ++ _, by rw [toList_finish, ht, append_assoc, append_assoc],
    fun t hmem => ?_⟩
  rcases mem_append.1 hmem with hmem | hmem
  · exact hk t hmem
  rcases mem_append.1 hmem with hmem | hmem
  · rw [eq_of_mem_replicate hmem]
    exact ⟨rfl, rfl, rfl⟩
  · rw [mem_singleton.1 hmem]
    exact ⟨rfl, rfl, rfl⟩

end AddsHere

namespace AddsLines

variable {s s' s'' : Layout}

theorem of_eq (h : s'.tokens = s.tokens) : s.AddsLines s' := (AddsHere.of_eq h).addsLines

theorem trans (h : s.AddsLines s') (h' : s'.AddsLines s'') : s.AddsLines s'' := by
  obtain ⟨ts, ht, hk⟩ := h
  obtain ⟨ts', ht', hk'⟩ := h'
  exact ⟨ts ++ ts', by rw [ht', ht, append_assoc], fun t hmem =>
    (mem_append.1 hmem).elim (hk t) (hk' t)⟩

theorem endLine (s : Layout) (stop : Nat) : s.AddsLines (s.endLine stop) :=
  (AddsHere.endLine s stop).addsLines

theorem openLine (s : Layout) (width : Nat) (next : Option Piece) :
    s.AddsLines (s.openLine width next).1 :=
  (AddsHere.openLine s width next).addsLines

theorem finish (s : Layout) : s.AddsLines s.finish := (AddsHere.finish s).addsLines

end AddsLines

/-- What one piece adds to the tokens: the token it stands for, or line structure. -/
theorem tokens_step (s : Layout) (p : Piece) (next : Option Piece) :
    s.AddsLines (s.step p next).1 ∨ ∃ t : Token, (s.step p next).1.tokens = s.tokens.push t ∧
      p.form = .token t.kind t.lexeme ∧ t.start = s.place.offset := by
  unfold step
  split
  iterate 3 exact .inl (.of_eq rfl)
  · split
    · exact .inl (.of_eq rfl)
    · have hopen := AddsLines.openLine ((s.endLine (s.place.offset + 1)).skip p.text)
        (width (p.text.drop 1)) next
      exact .inl ((AddsLines.endLine s _).trans hopen)
  · next hp => exact .inr ⟨_, rfl, hp, rfl⟩
  · exact .inl (.of_eq rfl)

/-- A token that stands for text comes after the tokens that were there and those without text. -/
theorem length_le_of_addsLines {s s' : Layout} (h : s.AddsLines s') {t : Token}
    {ts ts' new : List Token} (ht : s'.tokens.toList ++ new = ts ++ t :: ts')
    (hk : t.kind.isText = true) (hlen : s.tokens.toList.length ≤ ts.length) :
    s'.tokens.toList.length ≤ ts.length := by
  obtain ⟨us, hus, hlines⟩ := h
  refine Nat.le_of_not_lt fun hlt => ?_
  rw [hus] at ht hlt
  have hmem : t ∈ us := by
    have hget : (s.tokens.toList ++ us ++ new)[ts.length]? = some t := by
      rw [ht]
      simp
    rw [getElem?_append_left hlt, getElem?_append_right hlen] at hget
    exact mem_of_getElem? hget
  rw [hlines t hmem] at hk
  cases hk

/-- **The piece of a token**, in a run: the tokens before it are those of the pieces before. -/
theorem exists_piece_of_run {t : Token} {ts ts' : List Token} (hk : t.kind.isText = true) :
    (ps : List Piece) → {s : Layout} → (s.run 0 ps).2 = none →
    (s.run 0 ps).1.tokens.toList = ts ++ t :: ts' → s.tokens.toList.length ≤ ts.length →
    ∃ qs p rs u, ps = qs ++ p :: rs ∧ s.feed (some p) qs = (u, none) ∧ u.tokens.toList = ts ∧
      t.start = u.place.offset ∧ p.form = .token t.kind t.lexeme
  | [], s, _, ht, hlen => by
    change s.finish.tokens.toList = _ at ht
    have hle := length_le_of_addsLines (AddsLines.finish s) ((List.append_nil _).trans ht) hk hlen
    have := congrArg List.length ht
    rw [length_append, length_cons] at this
    omega
  | p :: ps, s, he, ht, hlen => by
    have hstep := tokens_step s p ps.head?
    rw [run] at he ht
    generalize hs : s.step p ps.head? = r at *
    obtain ⟨u, e⟩ := r
    cases e with
    | some e => cases he
    | none =>
      change (u.run 0 ps).2 = none at he
      change (u.run 0 ps).1.tokens.toList = _ at ht
      obtain ⟨new, hnew, -⟩ := (Grows.run ps u).tokens
      -- a token of a later piece is found by the induction
      have hlater (hle : u.tokens.toList.length ≤ ts.length) :
          ∃ qs q rs w, p :: ps = qs ++ q :: rs ∧ s.feed (some q) qs = (w, none) ∧
            w.tokens.toList = ts ∧ t.start = w.place.offset ∧
            q.form = .token t.kind t.lexeme := by
        obtain ⟨qs, q, rs, w, rfl, hfeed, hw⟩ := exists_piece_of_run hk ps he ht hle
        refine ⟨p :: qs, q, rs, w, rfl, ?_, hw⟩
        have hnext : (qs ++ q :: rs).head? = qs.head?.or (some q) := by
          rw [List.head?_append, head?_cons]
        rw [feed, ← hnext, hs]
        exact hfeed
      rcases hstep with hlines | ⟨t', hpush, hform, hstart⟩
      · exact hlater (length_le_of_addsLines hlines (hnew.symm.trans ht) hk hlen)
      · change u.tokens = _ at hpush
        rw [hpush, Array.toList_push] at hnew hlater
        by_cases hle : (s.tokens.toList ++ [t']).length ≤ ts.length
        · exact hlater hle
        · rw [length_append, length_singleton] at hle
          rw [hnew, append_assoc] at ht
          obtain ⟨hts, hrest⟩ := append_inj ht (by omega)
          obtain rfl : t' = t := (List.cons.inj hrest).1
          exact ⟨[], p, ps, s, rfl, rfl, hts, hstart, hform⟩

/-- **The piece of a token**: the tokens before it are those of the pieces before, and it starts
where the text of these pieces ends. -/
theorem exists_piece {t : Token} {ts ts' : List Token} (hk : t.kind.isText = true)
    {ps : List Piece} (he : (runAll 0 ps).2 = none)
    (ht : (runAll 0 ps).1.tokens.toList = ts ++ t :: ts') :
    ∃ qs p rs s, ps = qs ++ p :: rs ∧ feedAll (some p) qs = (s, none) ∧ s.tokens.toList = ts ∧
      t.start = s.place.offset ∧ p.form = .token t.kind t.lexeme := by
  cases ps with
  | nil =>
    obtain ⟨qs, p, rs, u, hps, -⟩ := exists_piece_of_run hk [] he ht (Nat.zero_le _)
    simp at hps
  | cons p ps =>
    by_cases hb : p.form = .blank
    · have hopen := AddsLines.openLine (({} : Layout).skip p.text) (width p.text) ps.head?
      rw [runAll, if_pos hb] at he ht
      generalize hs : (({} : Layout).skip p.text).openLine (width p.text) ps.head? = r at *
      obtain ⟨s, e⟩ := r
      cases e with
      | some e => cases he
      | none =>
        change (s.run 0 ps).2 = none at he
        change (s.run 0 ps).1.tokens.toList = _ at ht
        obtain ⟨new, hnew, -⟩ := (Grows.run ps s).tokens
        have hle := length_le_of_addsLines hopen (hnew.symm.trans ht) hk (Nat.zero_le _)
        obtain ⟨qs, q, rs, u, rfl, hfeed, hu⟩ := exists_piece_of_run hk ps he ht hle
        refine ⟨p :: qs, q, rs, u, rfl, ?_, hu⟩
        have hnext : (qs ++ q :: rs).head? = qs.head?.or (some q) := by
          rw [List.head?_append, head?_cons]
        rw [feedAll, if_pos hb, ← hnext, hs]
        exact hfeed
    · rw [runAll, if_neg hb] at he ht
      obtain ⟨qs, q, rs, u, hps, hfeed, hu⟩ :=
        exists_piece_of_run hk (p :: ps) he ht (Nat.zero_le _)
      refine ⟨qs, q, rs, u, hps, ?_, hu⟩
      cases qs with
      | nil => exact hfeed
      | cons p' qs =>
        obtain ⟨rfl, -⟩ := List.cons.inj hps
        rw [feedAll, if_neg hb, hfeed]

/-! ### The piece in front of a token -/

/-- The indentation of a line with code that opens and closes no block changes nothing. -/
theorem alike_openLine {s u : Layout} {width : Nat} {next : Option Piece}
    (h : s.openLine width next = (u, none))
    (hu : next.any isCode = true → ∀ t ∈ u.tokens.back?, t.kind ≠ .indent ∧ t.kind ≠ .dedent) :
    s.Alike u := by
  unfold openLine at h
  split at h
  · next hcode =>
    have hu := hu hcode
    unfold indentTo at h
    split at h
    · cases h
      exact absurd rfl (hu ⟨.indent, "", s.place.line, s.place.column, s.place.offset,
        s.place.offset⟩ (by simp [mark, emit])).1
    · rw [closeTo_eq] at h
      obtain ⟨rfl, -⟩ := Prod.mk.inj h
      have hwidths : s.widths.takeWhile (width < ·) ++ s.widths.dropWhile (width < ·) = s.widths :=
        takeWhile_append_dropWhile
      cases hclosed : s.widths.takeWhile (width < ·) with
      | nil =>
        rw [hclosed, nil_append] at hwidths
        exact ⟨hwidths, rfl, by simp⟩
      | cons w ws =>
        rw [hclosed] at hu
        exact absurd rfl (hu (dedentAt s.place) 
          (by simp [← Array.getLast?_toList, getLast?_replicate])).2
  · cases h
    exact .refl s

/-- A step looks at the next piece only to see whether it is code. -/
theorem step_congr {next next' : Option Piece} (h : next.any isCode = next'.any isCode)
    (s : Layout) (p : Piece) : s.step p next = s.step p next' := by
  unfold step openLine
  rw [h]

theorem any_isCode_of_form {q q' : Piece} (hform : q'.form = q.form) (ps : List Piece)
    (after after' : Option Piece) : ((ps ++ [q']).head?.or after').any isCode =
      ((ps ++ [q]).head?.or after).any isCode := by
  cases ps with
  | nil =>
    change isCode q' = isCode q
    rw [isCode, isCode, hform]
  | cons r ps => rfl

/-- The text of a piece that is not followed by code does not matter, if the indentation behind it
did not count before. -/
theorem exists_step_of_form {s u : Layout} {q q' : Piece} {next next' : Option Piece}
    (hform : q'.form = q.form) (h : s.step q next = (u, none))
    (hu : next.any isCode = true → ∀ t ∈ u.tokens.back?, t.kind ≠ .indent ∧ t.kind ≠ .dedent)
    (hnext' : next'.any isCode = false) : ∃ u', s.step q' next' = (u', none) ∧ u.Alike u' := by
  unfold step at h ⊢
  rw [hform]
  split at h
  iterate 3
    cases h
    exact ⟨_, rfl, (Alike.refl s).skip _ _⟩
  · split at h
    · next hn =>
      cases h
      exact ⟨_, if_pos hn, (Alike.refl s).skip _ _⟩
    · next hn =>
      rw [if_neg hn, openLine, hnext', if_neg Bool.false_ne_true]
      exact ⟨_, rfl, (alike_openLine h hu).symm.trans ((Alike.refl _).skip _ _)⟩
  · cases h
    exact ⟨_, rfl, rfl, rfl, by simp [emit, Token.word]⟩
  · cases h

/-- The text of the last piece does not matter, if it is not followed by code and the indentation
behind it did not count before. -/
theorem exists_feed_of_form {u : Layout} {q q' : Piece} {after after' : Option Piece}
    (hform : q'.form = q.form)
    (hu : after.any isCode = true → ∀ t ∈ u.tokens.back?, t.kind ≠ .indent ∧ t.kind ≠ .dedent)
    (hafter' : after'.any isCode = false) : (ps : List Piece) → {s : Layout} →
    s.feed after (ps ++ [q]) = (u, none) →
    ∃ u', s.feed after' (ps ++ [q']) = (u', none) ∧ u.Alike u'
  | [], s, h => by
    rw [nil_append, feed] at h
    split at h
    · cases h
    · next hs =>
      cases h
      obtain ⟨u', hs', hu'⟩ := exists_step_of_form hform hs hu hafter'
      refine ⟨u', ?_, hu'⟩
      rw [nil_append, feed]
      change (match s.step q' after' with | (s, some e) => (s, some e) | (s, none) => _) = _
      rw [hs']
      rfl
  | p :: ps, s, h => by
    rw [cons_append, feed] at h ⊢
    rw [step_congr (any_isCode_of_form hform ps after after')]
    split at h
    · cases h
    · next hs =>
      exact exists_feed_of_form hform hu hafter' ps h

/-- **The text of the piece in front of a token does not matter**, if no code follows it any more
and the token was not the first one of its block or after a block. -/
theorem exists_feedAll_of_repadded {qs qs' : List Piece} (hqs : Piece.Repadded qs qs') {u : Layout}
    {after after' : Option Piece} (h : feedAll after qs = (u, none))
    (hu : after.any isCode = true → ∀ t ∈ u.tokens.back?, t.kind ≠ .indent ∧ t.kind ≠ .dedent)
    (hafter' : after'.any isCode = false) : ∃ u', feedAll after' qs' = (u', none) ∧ u.Alike u' := by
  obtain ⟨rfl, text, rfl⟩ | ⟨ps, q, text, rfl, rfl⟩ := hqs
  · cases h
    refine ⟨({} : Layout).skip text, ?_, rfl, rfl, rfl⟩
    simp [feedAll, openLine, feed, hafter']
  · have hform : (Piece.mk q.form text).form = q.form := rfl
    generalize Piece.mk q.form text = q' at *
    cases ps with
    | nil =>
      rw [nil_append, feedAll] at h ⊢
      rw [hform]
      split at h
      · next hb =>
        rw [if_pos hb]
        split at h
        · cases h
        · next s hs =>
          cases h
          refine ⟨({} : Layout).skip q'.text, ?_, ?_⟩
          · simp [openLine, feed, hafter']
          · exact (alike_openLine hs hu).symm.trans ((Alike.refl _).skip _ _)
      · next hb =>
        rw [if_neg hb]
        exact exists_feed_of_form hform hu hafter' [] h
    | cons p ps =>
      have hopen (s : Layout) (width : Nat) : s.openLine width ((ps ++ [q']).head?.or after') =
          s.openLine width ((ps ++ [q]).head?.or after) := by
        rw [openLine, openLine, any_isCode_of_form hform ps after]
      rw [cons_append, feedAll] at h ⊢
      rw [hopen]
      split at h
      · next hb =>
        rw [if_pos hb]
        split at h
        · cases h
        · exact exists_feed_of_form hform hu hafter' ps h
      · next hb =>
        rw [if_neg hb]
        exact exists_feed_of_form hform hu hafter' (p :: ps) h

/-- Blanks and comments in marks only move the place. -/
theorem exists_feed_of_skipped (after : Option Piece) : (ms : List Piece) →
    (∀ m ∈ ms, m.form = .blank ∨ m.form = .blockComment) → (s : Layout) →
    ∃ u, s.feed after ms = (u, none) ∧ s.Alike u
  | [], _, s => ⟨s, rfl, .refl s⟩
  | m :: ms, h, s => by
    have hstep : s.step m (ms.head?.or after) = (s.skip m.text, none) := by
      unfold step
      rcases h m (mem_cons_self ..) with hm | hm <;> rw [hm]
    obtain ⟨u, hu, hsame⟩ := exists_feed_of_skipped after ms
      (fun q hq => h q (mem_cons_of_mem m hq)) (s.skip m.text)
    refine ⟨u, ?_, ((Alike.refl s).skip [] m.text).trans hsame⟩
    rw [feed, hstep]
    exact hu

/-- **Blanks and comments in front of a token do not matter**, if the token is not the first one of
its block or after a block. -/
theorem alike_runAll_of_repadded {qs qs' ms rs : List Piece} {s : Layout}
    (he : (runAll 0 (qs ++ rs)).2 = none) (hs : feedAll rs.head? qs = (s, none))
    (hrs : ∀ r ∈ rs.head?, r.form ≠ .blank)
    (hback : rs = [] ∨ ∀ t ∈ s.tokens.back?, t.kind ≠ .indent ∧ t.kind ≠ .dedent)
    (hqs : Piece.Repadded qs qs') (hms : ∀ m ∈ ms, m.form = .blank ∨ m.form = .blockComment)
    (hend : ms = [] → rs = []) :
    (runAll 0 (qs ++ rs)).1.Alike (runAll 0 (qs' ++ (ms ++ rs))).1 ∧
      (runAll 0 (qs' ++ (ms ++ rs))).2 = none := by
  have hback (hcode : rs.head?.any isCode = true) :
      ∀ t ∈ s.tokens.back?, t.kind ≠ .indent ∧ t.kind ≠ .dedent := by
    refine hback.resolve_left fun hnil => ?_
    rw [hnil] at hcode
    cases hcode
  have hnext : (ms ++ rs).head?.any isCode = false := by
    cases ms with
    | nil =>
      rw [hend rfl]
      rfl
    | cons m ms =>
      change isCode m = false
      unfold isCode
      rcases hms m (mem_cons_self ..) with hm | hm <;> rw [hm]
  have hqs' : qs' ≠ [] := by
    obtain ⟨-, text, rfl⟩ | ⟨ps, q, text, -, rfl⟩ := hqs <;> simp
  obtain ⟨s', hs', hsame⟩ := exists_feedAll_of_repadded hqs hs hback hnext
  obtain ⟨s'', hs'', hsame'⟩ := exists_feed_of_skipped rs.head? ms hms s'
  rw [runAll_append fun _ => hrs, hs] at he ⊢
  rw [runAll_append fun hnil => absurd hnil hqs', hs']
  dsimp only
  rw [run_append, hs'']
  have hagree := Alike.run rs (hsame.trans hsame')
  exact ⟨hagree.alike, hagree.error_eq_none he⟩

end Layout

end Pine
