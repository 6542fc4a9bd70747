import Pine.Proofs.Grammar.Reads

/-!
# Balance of a layout

The layout keeps count of what it has put into its tokens: the tokens made so far leave open just
as many blocks as there are open widths and just as many brackets as the nesting says. At the end
of a source every open block is closed, so a source that leaves no bracket open can be followed by
another one.
-/

namespace Pine

open List

/-! ### Kinds of tokens from text -/

/-- The kinds of tokens that stand for text. -/
def Token.Kind.isText (k : Token.Kind) : Bool := !k.isLayout && k ≠ .eof

namespace Piece

theorem isText_wordKind (word : String) : (wordKind word).isText = true := by
  unfold wordKind
  repeat' split
  all_goals rfl

theorem isText_of_punctuation {c : Char} {kind : Token.Kind} (h : punctuation? c = some kind) :
    kind.isText = true := by
  unfold punctuation? at h
  split at h <;> cases h <;> rfl

theorem isText_of_classify {c : Char} {cs : List Char} {kind : Token.Kind} {lexeme : String}
    (h : (classify c cs).1 = .token kind lexeme) : kind.isText = true := by
  revert h
  fun_cases classify c cs with
  | case6 =>
    rintro ⟨⟩
    exact isText_wordKind _
  | case13 _ _ _ _ _ _ _ _ _ _ hp =>
    rintro ⟨⟩
    exact isText_of_punctuation hp
  | case7 | case8 | case11 | case12 =>
    rintro ⟨⟩
    rfl
  | _ => exact nofun

/-- A token that a piece stands for stands for text. -/
abbrev IsText (p : Piece) : Prop := ∀ kind lexeme, p.form = .token kind lexeme → kind.isText = true

theorem isText_of_mem_split {cs : List Char} {p : Piece} (hp : p ∈ split cs) : p.IsText := by
  intro kind lexeme h
  fun_induction split cs with
  | case1 => cases hp
  | case2 c cs form more hm ih =>
    rcases mem_cons.1 hp with rfl | hp
    · exact isText_of_classify (by rw [hm]; exact h)
    · exact ih hp

end Piece

/-! ### Balance -/

namespace Token

theorem levelAfter_replicate {t : Token} (h : t.kind = .dedent) (level n : Nat) :
    levelAfter level (List.replicate n t) = level := by
  induction n with
  | zero => rfl
  | succ n ih =>
    have hs : levelAfter level (List.replicate (n + 1) t) =
        levelAfter (Layout.nest t.kind level) (List.replicate n t) := rfl
    rw [hs, h]
    exact ih

theorem blocksAfter_replicate {t : Token} (h : t.kind = .dedent) (level n : Nat) :
    blocksAfter level (List.replicate n t) = level - n := by
  induction n generalizing level with
  | zero => rfl
  | succ n ih =>
    have hs : blocksAfter level (List.replicate (n + 1) t) =
        blocksAfter (t.kind.blocks level) (List.replicate n t) := rfl
    rw [hs, ih, h, Kind.blocks]
    omega

end Token

namespace Layout

/-- The tokens made so far agree with the open widths and the nesting. -/
structure Balanced (s : Layout) : Prop where
  widths : ∀ w ∈ s.widths, 0 < w
  blocks : Token.blocksAfter 0 s.tokens.toList = s.widths.length
  nesting : Token.levelAfter 0 s.tokens.toList = s.nesting
  eof : ∀ t ∈ s.tokens.toList, t.kind ≠ .eof

/-- The token that closes a block. -/
def dedentAt (place : Place) : Token :=
  ⟨.dedent, "", place.line, place.column, place.offset, place.offset⟩

theorem closeTo_eq (width : Nat) (place : Place) : (ws : List Nat) → (tokens : Array Token) →
    closeTo width place ws tokens = (ws.dropWhile (width < ·),
      tokens ++ List.replicate (ws.takeWhile (width < ·)).length (dedentAt place))
  | [], tokens => by simp [closeTo]
  | w :: ws, tokens => by
    by_cases h : width < w
    · rw [closeTo, if_pos h, closeTo_eq width place ws]
      simp [h, dedentAt, replicate_succ]
    · simp [closeTo, h]

namespace Balanced

variable {s s' : Layout}

theorem initial : Balanced {} := ⟨by simp, rfl, rfl, by simp⟩

/-- One more token. -/
theorem push (h : s.Balanced) {t : Token} (ht : s'.tokens = s.tokens.push t) (he : t.kind ≠ .eof)
    (hw : ∀ w ∈ s'.widths, 0 < w) (hb : s'.widths.length = t.kind.blocks s.widths.length)
    (hn : s'.nesting = nest t.kind s.nesting) : s'.Balanced := by
  refine ⟨hw, ?_, ?_, ?_⟩
  · rw [ht, Array.toList_push, Token.blocksAfter_append, h.blocks, hb]
    rfl
  · rw [ht, Array.toList_push, Token.levelAfter_append, h.nesting, hn]
    rfl
  · rw [ht, Array.toList_push]
    intro u hu
    rcases mem_append.1 hu with hu | hu
    · exact h.eof u hu
    · rwa [mem_singleton.1 hu]

theorem skip (h : s.Balanced) (text : List Char) : (s.skip text).Balanced :=
  ⟨h.widths, h.blocks, h.nesting, h.eof⟩

theorem endLine (h : s.Balanced) (stop : Nat) : (s.endLine stop).Balanced := by
  unfold Layout.endLine
  split
  · exact h
  · split
    · exact h
    · exact h.push rfl (by simp) h.widths rfl rfl

theorem indentTo (h : s.Balanced) (width : Nat) : (s.indentTo width).1.Balanced := by
  unfold Layout.indentTo
  split
  · next hw =>
    refine h.push rfl (by simp) (fun w hmem => ?_) rfl rfl
    rcases mem_cons.1 hmem with rfl | hmem
    · omega
    · exact h.widths w hmem
  · rw [closeTo_eq]
    have hlen := congrArg List.length (takeWhile_append_dropWhile (p := (width < ·))
      (l := s.widths))
    rw [length_append] at hlen
    refine ⟨fun w hw => h.widths w (dropWhile_sublist _ |>.mem hw), ?_, ?_, ?_⟩
    · rw [Array.toList_appendList, Token.blocksAfter_append, h.blocks,
        Token.blocksAfter_replicate rfl]
      dsimp only
      omega
    · rw [Array.toList_appendList, Token.levelAfter_append, h.nesting,
        Token.levelAfter_replicate rfl]
    · rw [Array.toList_appendList]
      intro t ht
      rcases mem_append.1 ht with ht | ht
      · exact h.eof t ht
      · rw [eq_of_mem_replicate ht]
        exact nofun

theorem openLine (h : s.Balanced) (width : Nat) (next : Option Piece) :
    (s.openLine width next).1.Balanced := by
  unfold Layout.openLine
  split
  · exact h.indentTo width
  · exact h

/-- **Every step keeps the balance.** -/
theorem step (h : s.Balanced) {p : Piece} (hp : p.IsText) (next : Option Piece) :
    (s.step p next).1.Balanced := by
  unfold Layout.step
  split
  iterate 3 exact h.skip p.text
  · split
    · exact h.skip p.text
    · exact ((h.endLine _).skip p.text).openLine _ next
  · next kind lexeme hf =>
    have ht := hp kind lexeme hf
    refine h.push rfl ?_ h.widths ?_ rfl
    · rintro rfl
      cases ht
    · cases kind <;> first | rfl | cases ht
  · exact h

end Balanced

/-! ### Runs -/

/-- All pieces up to the first error, with a look at what comes after them. -/
def feed (after : Option Piece) : List Piece → Layout → Layout × Option LexError
  | [], s => (s, none)
  | p :: ps, s =>
    match s.step p (ps.head?.or after) with
    | (s, some e) => (s, some e)
    | (s, none) => feed after ps s

/-- A run over two lists of pieces in a row, without a ceiling. -/
theorem run_append (qs : List Piece) : (ps : List Piece) → (s : Layout) →
    run 0 (ps ++ qs) s =
      match feed qs.head? ps s with
      | (s, some e) => (s, some e)
      | (s, none) => run 0 qs s
  | [], s => rfl
  | p :: ps, s => by
    rw [cons_append, run, feed, List.head?_append]
    cases s.step p (ps.head?.or qs.head?) with
    | mk s' e =>
      cases e with
      | some e => rfl
      | none => exact run_append qs ps s'

/-- **Every run keeps the balance.** -/
theorem Balanced.feed (after : Option Piece) : (ps : List Piece) → {s : Layout} → s.Balanced →
    (∀ p ∈ ps, p.IsText) → (s.feed after ps).1.Balanced
  | [], _, h, _ => h
  | p :: ps, s, h, hp => by
    have hs := h.step (hp p (mem_cons_self ..)) (ps.head?.or after)
    unfold Layout.feed
    split
    · next heq => rwa [heq] at hs
    · next heq =>
      rw [heq] at hs
      exact Balanced.feed after ps hs fun q hq => hp q (mem_cons_of_mem p hq)

/-! ### The end of a source -/

/-- The token at the end of a source. -/
def eofAt (place : Place) : Token :=
  ⟨.eof, "", place.line, place.column, place.offset, place.offset⟩

theorem endLine_frame (s : Layout) (stop : Nat) :
    (s.endLine stop).place = s.place ∧ (s.endLine stop).nesting = s.nesting := by
  unfold endLine
  split
  · exact ⟨rfl, rfl⟩
  · split <;> exact ⟨rfl, rfl⟩

theorem foldl_mark (ws : List Nat) (s : Layout) :
    ws.foldl (fun s _ => s.mark .dedent) s =
      { s with tokens := s.tokens ++ List.replicate ws.length (dedentAt s.place) } := by
  induction ws generalizing s with
  | nil => simp
  | cons w ws ih =>
    rw [foldl_cons, ih]
    simp [mark, emit, dedentAt, replicate_succ]

theorem toList_finish (s : Layout) :
    s.finish.tokens.toList = (s.endLine s.place.offset).tokens.toList ++
      List.replicate (s.endLine s.place.offset).widths.length (dedentAt s.place) ++
      [eofAt s.place] := by
  unfold finish
  dsimp only
  rw [foldl_mark, mark, emit, Array.toList_push, Array.toList_appendList, (endLine_frame ..).1]
  rfl

theorem levelAfter_finish {s : Layout} (h : s.Balanced) :
    Token.levelAfter 0 s.finish.tokens.toList = s.nesting := by
  have hb := h.endLine s.place.offset
  rw [toList_finish, Token.levelAfter_append, Token.levelAfter_append, hb.nesting,
    Token.levelAfter_replicate rfl, (endLine_frame ..).2]
  rfl

/-- A run without an error ends with the end of its source. -/
theorem exists_finish {ps : List Piece} (he : (runAll 0 ps).2 = none)
    (hp : ∀ p ∈ ps, p.IsText) :
    ∃ s : Layout, s.Balanced ∧ runAll 0 ps = (s.finish, none) := by
  have hrun {qs : List Piece} (hq : ∀ q ∈ qs, q ∈ ps) {s : Layout} (h : s.Balanced)
      (he : (s.run 0 qs).2 = none) : ∃ u : Layout, u.Balanced ∧ s.run 0 qs = (u.finish, none) := by
    have hb := h.feed none qs fun q hmem => hp q (hq q hmem)
    have happ := run_append [] qs s
    rw [List.append_nil, head?_nil] at happ
    generalize s.feed none qs = r at hb happ
    obtain ⟨u, e⟩ := r
    cases e with
    | some e =>
      rw [happ] at he
      cases he
    | none => exact ⟨u, hb, happ⟩
  cases ps with
  | nil => exact ⟨{}, .initial, rfl⟩
  | cons p ps =>
    by_cases hb : p.form = .blank
    · have hopen := (Balanced.initial.skip p.text).openLine (width p.text) ps.head?
      rw [runAll, if_pos hb] at he ⊢
      generalize (({} : Layout).skip p.text).openLine (width p.text) ps.head? = r at he hopen ⊢
      obtain ⟨u, e⟩ := r
      cases e with
      | some e => cases he
      | none => exact hrun (fun q hq => mem_cons_of_mem p hq) hopen he
    · rw [runAll, if_neg hb] at he ⊢
      exact hrun (fun q hq => hq) .initial he

end Layout

/-- **The tokens of a source end with the only end of input.** -/
theorem Token.exists_eof_of_lex {source : List Char} (h : (Token.lex 0 source).error = none) :
    ∃ ts eof, (Token.lex 0 source).tokens = ts ++ [eof] ∧ eof.kind = .eof ∧
      ∀ t ∈ ts, t.kind ≠ .eof := by
  obtain ⟨s, hb, hs⟩ := Layout.exists_finish h fun _ => Piece.isText_of_mem_split
  have hts : (Token.lex 0 source).tokens = s.finish.tokens.toList := by rw [Token.lex, hs]
  rw [hts, Layout.toList_finish]
  refine ⟨_, _, rfl, rfl, fun t ht => ?_⟩
  rcases mem_append.1 ht with ht | ht
  · exact (hb.endLine _).eof t ht
  · rw [eq_of_mem_replicate ht]
    exact nofun

end Pine
