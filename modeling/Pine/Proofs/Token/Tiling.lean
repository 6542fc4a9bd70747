import Mathlib.Data.List.Chain
import Mathlib.Data.List.Induction
import Pine.Proofs.Token.Filler
import Pine.Proofs.Token.Places

/-!
# Tokens tile their source

The tokens of a source that stand for text and the text between them make up the source. Each token
stands where its offsets, line and column say, and shows its lexeme there; a string shows its
quotation marks. Between two tokens, in front of the first and behind the last one stand blanks,
newlines and complete comments only.

## Main results

* `Layout.texts_feed`: a layout makes the tokens of its pieces.
* `Piece.tiled_split`: the tokens of the pieces of a text tile it.
* `Token.tiles_lex`: the tokens of a source.
-/

namespace Pine

/-! ### Texts by their offsets -/

namespace Source

/-- The characters from one offset up to another. -/
def slice (text : List Char) (start stop : Nat) : List Char := (text.take stop).drop start

/-- The line of an offset, from one. -/
def lineAt (text : List Char) (offset : Nat) : Nat := 1 + (text.take offset).count '\n'

/-- The column of an offset, from one: the characters behind the last newline. -/
def columnAt (text : List Char) (offset : Nat) : Nat :=
  1 + ((text.take offset).reverse.takeWhile (· ≠ '\n')).length

theorem slice_append (before shown after : List Char) :
    slice (before ++ (shown ++ after)) before.length (before.length + shown.length) = shown := by
  rw [slice, List.take_length_add_append, List.drop_left, List.take_left]

end Source

namespace Place

theorem offset_after_first (text : List Char) : (first.after text).offset = text.length := by
  rw [offset_after]
  exact Nat.zero_add _

theorem line_after_first (text : List Char) : (first.after text).line = 1 + text.count '\n' :=
  line_after first text

theorem column_after_first (text : List Char) :
    (first.after text).column = 1 + (text.reverse.takeWhile (· ≠ '\n')).length := by
  induction text using List.reverseRecOn with
  | nil => rfl
  | append_singleton cs c ih =>
    rw [after_append, after_cons, after_nil, List.reverse_append]
    unfold next
    split
    · next hc => simp [hc]
    · next hc =>
      rw [ih]
      simp [hc]
      omega

end Place

namespace Token

/-! ### Tilings -/

/-- The text that a token shows: its lexeme, or anything between two equal quotation marks. -/
def Spells (t : Token) (shown : List Char) : Prop :=
  if t.kind = .string then
    ∃ mark inner, (mark = '"' ∨ mark = '\'') ∧ shown = mark :: (inner ++ [mark])
  else shown = t.lexeme.toList

/-- The token stands for the text `shown` behind the text `before`. -/
structure Stands (before shown : List Char) (t : Token) : Prop where
  start : t.start = before.length
  stop : t.stop = before.length + shown.length
  line : t.line = (Place.first.after before).line
  column : t.column = (Place.first.after before).column
  nonempty : shown ≠ []
  spells : t.Spells shown

/-- Behind the text `before`, the tokens and filling text in turn make up a text. -/
inductive Tiled : List Char → List Char → List Token → Prop where
  | last {before gap : List Char} (hgap : Source.Filler [] gap) : Tiled before gap []
  | token {before gap shown after : List Char} {t : Token} {ts : List Token}
      (hgap : Source.Filler (shown ++ after) gap) (ht : t.Stands (before ++ gap) shown)
      (hts : Tiled (before ++ gap ++ shown) after ts) :
      Tiled before (gap ++ (shown ++ after)) (t :: ts)

/-- Where a token of a text stands. -/
structure Sits (text : List Char) (t : Token) : Prop where
  start_nonneg : 0 ≤ t.start
  start_lt_stop : t.start < t.stop
  stop_le : t.stop ≤ text.length
  spells : t.Spells (Source.slice text t.start.toNat t.stop.toNat)
  line : t.line = Source.lineAt text t.start.toNat
  column : t.column = Source.columnAt text t.start.toNat

/-- Where the last of some tokens stops, or a given offset if there is none. -/
def stopOf (offset : Nat) : List Token → Nat
  | [] => offset
  | t :: ts => stopOf t.stop.toNat ts

/-- Where the first of some tokens starts, or a given offset if there is none. -/
def startOf (offset : Nat) : List Token → Nat
  | [] => offset
  | t :: _ => t.start.toNat

variable {before shown after text : List Char} {t : Token} {ts : List Token}

theorem Stands.sits (h : t.Stands before shown) (after : List Char) :
    t.Sits (before ++ (shown ++ after)) := by
  have hstart : t.start.toNat = before.length := by rw [h.start, Int.toNat_natCast]
  have hstop : t.stop.toNat = before.length + shown.length := by
    rw [h.stop, ← Int.natCast_add, Int.toNat_natCast]
  have hpos := List.length_pos_iff.2 h.nonempty
  refine ⟨?_, ?_, ?_, ?_, ?_, ?_⟩
  · rw [h.start]
    exact Int.natCast_nonneg _
  · rw [h.start, h.stop]
    omega
  · rw [h.stop, List.length_append, List.length_append]
    omega
  · rw [hstart, hstop, Source.slice_append]
    exact h.spells
  · rw [hstart, h.line, Source.lineAt, List.take_left, Place.line_after_first]
  · rw [hstart, h.column, Source.columnAt, List.take_left, Place.column_after_first]

namespace Tiled

theorem sits (h : Tiled before text ts) : ∀ t ∈ ts, t.Sits (before ++ text) := by
  induction h with
  | last => nofun
  | @token before gap shown after t ts _ ht _ ih =>
    rw [List.forall_mem_cons, ← List.append_assoc]
    refine ⟨ht.sits after, ?_⟩
    rwa [List.append_assoc (before ++ gap)] at ih

/-- A token at once. -/
theorem cons (hts : Tiled (before ++ shown) after ts) (ht : t.Stands before shown) :
    Tiled before (shown ++ after) (t :: ts) :=
  @token before [] shown after t ts .nil (by rwa [List.append_nil]) (by rwa [List.append_nil])

/-- Text that fills in front of what follows it belongs to the first gap. -/
theorem skip {more : List Char} (h : Tiled (before ++ more) text ts)
    (hmore : ∀ gap after, text = gap ++ after → Source.Filler after gap →
      Source.Filler after (more ++ gap)) : Tiled before (more ++ text) ts := by
  cases h with
  | last hgap => exact .last (hmore _ [] (List.append_nil _).symm hgap)
  | token hgap ht hts =>
    rw [← List.append_assoc]
    rw [List.append_assoc before] at ht hts
    exact .token (hmore _ _ rfl hgap) ht hts

theorem isChain (h : Tiled before text ts) : ts.IsChain fun t u => t.stop ≤ u.start := by
  induction h with
  | last => exact .nil
  | token _ ht hts ih =>
    refine List.isChain_cons.2 ⟨fun u hu => ?_, ih⟩
    cases hts with
    | last => cases hu
    | token _ hu' _ =>
      obtain rfl := Option.some.inj hu
      rw [ht.stop, hu'.start]
      simp only [List.length_append]
      omega

/-- **Between the tokens** stands filling text. -/
theorem filler (h : Tiled before text ts) : ∀ {front rest : List Token}, ts = front ++ rest →
    Source.Filler ((before ++ text).drop (startOf (before ++ text).length rest))
      (Source.slice (before ++ text) (stopOf before.length front)
        (startOf (before ++ text).length rest)) := by
  induction h with
  | @last before gap hgap =>
    intro front rest heq
    obtain ⟨rfl, rfl⟩ := List.append_eq_nil_iff.1 heq.symm
    rw [startOf, stopOf, Source.slice, List.take_length, List.drop_length, List.drop_left]
    exact hgap
  | @token before gap shown after t ts hgap ht hts ih =>
    intro front rest heq
    cases front with
    | nil =>
      obtain rfl := heq.symm
      have hstart : t.start.toNat = before.length + gap.length := by
        rw [ht.start, Int.toNat_natCast, List.length_append]
      rw [startOf, stopOf, hstart, Source.slice_append, List.drop_length_add_append, List.drop_left]
      exact hgap
    | cons u front =>
      obtain ⟨rfl, rfl⟩ := List.cons.inj heq
      have hstop : t.stop.toNat = (before ++ gap ++ shown).length := by
        rw [ht.stop, ← Int.natCast_add, Int.toNat_natCast, ← List.length_append]
      have hrest := ih rfl
      rw [← hstop, List.append_assoc, List.append_assoc] at hrest
      exact hrest

end Tiled

end Token

/-! ### Tokens of pieces -/

namespace Piece

/-- The token of a piece at a place. -/
def token? (place : Place) (p : Piece) : Option Token :=
  match p.form with
  | .token kind lexeme =>
    some ⟨kind, lexeme, place.line, place.column, place.offset, (place.after p.text).offset⟩
  | _ => none

/-- The tokens of pieces from a place on. -/
def tokensFrom (place : Place) : List Piece → List Token
  | [] => []
  | p :: ps => (p.token? place).toList ++ tokensFrom (place.after p.text) ps

theorem token?_of_form {place : Place} {p : Piece}
    (h : ∀ kind lexeme, p.form ≠ .token kind lexeme) : p.token? place = none := by
  unfold token?
  split
  · next kind lexeme hf => exact absurd hf (h kind lexeme)
  · rfl

end Piece

namespace Layout

/-- One piece adds its token. -/
theorem texts_step {s : Layout} {p : Piece} {next : Option Piece} (hk : p.IsText)
    (he : (s.step p next).2 = none) :
    (s.step p next).1.texts = s.texts ++ (p.token? s.place).toList := by
  have hnone (h : ∀ kind lexeme, p.form ≠ .token kind lexeme) :
      s.texts ++ (p.token? s.place).toList = s.texts := by
    rw [Piece.token?_of_form h]
    exact List.append_nil _
  unfold step at he ⊢
  split
  iterate 3
    next hf => exact (hnone (by simp [hf])).symm
  · next hf =>
    rw [hnone (by simp [hf])]
    split
    · rfl
    · exact ((AddsLines.endLine s _).trans (.openLine ((s.endLine _).skip p.text) _ next)).texts_eq
  · next kind lexeme hf => simp [Piece.token?, hf, texts, emit, hk kind lexeme hf]
  · next hf =>
    rw [hf] at he
    cases he

/-- **A layout makes the tokens of its pieces**, apart from line structure. -/
theorem texts_feed {after : Option Piece} : {ps : List Piece} → {s s' : Layout} →
    (∀ p ∈ ps, p.IsText) →
    s.feed after ps = (s', none) → s'.texts = s.texts ++ Piece.tokensFrom s.place ps
  | [], _, _, _, hfeed => by
    cases hfeed
    exact (List.append_nil _).symm
  | p :: ps, s, s', hk, hfeed => by
    obtain ⟨hp, hps⟩ := List.forall_mem_cons.1 hk
    unfold Layout.feed at hfeed
    split at hfeed
    · cases hfeed
    · next u hu =>
      have htexts := texts_step hp (congrArg Prod.snd hu)
      have hplace := place_step (congrArg Prod.snd hu)
      rw [hu] at htexts hplace
      rw [texts_feed hps hfeed, htexts, hplace, List.append_assoc]
      rfl

theorem texts_feedAll {after : Option Piece} {ps : List Piece} {s : Layout}
    (hk : ∀ p ∈ ps, p.IsText) (hfeed : feedAll after ps = (s, none)) :
    s.texts = Piece.tokensFrom .first ps := by
  cases ps with
  | nil =>
    cases hfeed
    rfl
  | cons p ps =>
    rw [feedAll] at hfeed
    split at hfeed
    · next hblank =>
      split at hfeed
      · cases hfeed
      · next u hu =>
        have htexts := (AddsLines.openLine (({} : Layout).skip p.text) (width p.text)
          (ps.head?.or after)).texts_eq
        have hplace := place_openLine (({} : Layout).skip p.text) (width p.text) (ps.head?.or after)
        have hnone : p.token? .first = none := Piece.token?_of_form (by simp [hblank])
        rw [hu] at htexts hplace
        rw [texts_feed (List.forall_mem_cons.1 hk).2 hfeed, htexts, hplace, Piece.tokensFrom, hnone]
        rfl
    · exact texts_feed hk hfeed

end Layout

/-! ### Pieces of a text -/

namespace Piece

theorem wordKind_ne_string (word : String) : wordKind word ≠ .string := by
  unfold wordKind
  repeat' split
  all_goals exact nofun

theorem spells_plain {kind : Token.Kind} {c : Char} {cs : List Char} {more : Nat} {t : Token}
    (hkind : kind ≠ .string) (h : (plain kind c cs more).1 = .token t.kind t.lexeme) :
    t.Spells (c :: cs.take more) := by
  obtain ⟨rfl, hlexeme⟩ := Form.token.inj h
  rw [Token.Spells, if_neg hkind, ← hlexeme, String.toList_ofList]

theorem take_operator? {c : Char} {cs : List Char} {op : String}
    (h : operator? (c :: cs) = some op) : c :: cs.take (op.length - 1) = op.toList := by
  have hne : ∀ op ∈ operators, op.toList ≠ [] := by decide
  have hpos := List.length_pos_iff.2 (hne op (List.mem_of_find?_eq_some h))
  have hfits := List.find?_some h
  have hprefix : op.toList <+: c :: cs := List.isPrefixOf_iff_prefix.1 hfits
  rw [List.prefix_iff_eq_take.1 hprefix, ← List.take_succ_cons]
  rw [String.length_toList] at hpos ⊢
  rw [Nat.sub_add_cancel hpos]

/-- **A token shows the text of its piece.** -/
theorem spells_of_classify {c : Char} {cs : List Char} {t : Token}
    (h : (classify c cs).1 = .token t.kind t.lexeme) :
    t.Spells (c :: cs.take (classify c cs).2) := by
  revert h
  fun_cases classify c cs with
  | case1 | case2 | case3 | case4 | case5 | case9 | case10 | case14 =>
    intro h
    cases h
  | case6 => exact spells_plain (wordKind_ne_string _)
  | case7 | case11 => exact spells_plain (by decide)
  | case8 _ _ _ _ _ _ hmark value n hn =>
    intro h
    obtain ⟨hkind, -⟩ := Form.token.inj h
    obtain ⟨inner, hinner⟩ := List.getLast?_eq_some_iff.1 (stringRest_bounds hn).2.2
    rw [Token.Spells, if_pos hkind.symm]
    exact ⟨c, inner, by simpa using hmark, by rw [hinner]⟩
  | case12 _ _ _ _ _ _ _ _ op hop =>
    intro h
    obtain ⟨hkind, rfl⟩ := Form.token.inj h
    rw [Token.Spells, ← hkind, if_neg (by decide)]
    exact take_operator? hop
  | case13 _ _ _ _ _ _ _ _ _ kind hkind =>
    refine spells_plain ?_
    rintro rfl
    unfold punctuation? at hkind
    split at hkind <;> cases hkind

theorem stands_of_classify {before : List Char} {c : Char} {cs : List Char} {t : Token}
    (h : token? (.after .first before) ⟨(classify c cs).1, c :: cs.take (classify c cs).2⟩ =
      some t) : t.Stands before (c :: cs.take (classify c cs).2) := by
  unfold token? at h
  split at h
  · next kind lexeme hf =>
    obtain rfl := Option.some.inj h
    refine ⟨?_, ?_, rfl, rfl, List.cons_ne_nil _ _, spells_of_classify hf⟩
    · exact congrArg _ (Place.offset_after_first before)
    · dsimp only
      rw [← Place.after_append, Place.offset_after_first, List.length_append, Int.natCast_add]
  · cases h

/-- **The tokens of the pieces of a text tile it.** -/
theorem tiled_split {cs : List Char} (hfault : ∀ p ∈ split cs, ∀ f, p.form ≠ .fault f)
    (before : List Char) :
    Token.Tiled before cs (tokensFrom (.after .first before) (split cs)) := by
  fun_induction split cs generalizing before with
  | case1 => exact .last .nil
  | case2 c cs form more hm ih =>
    obtain ⟨rfl, rfl⟩ : (classify c cs).1 = form ∧ (classify c cs).2 = more := by
      rw [hm]
      exact ⟨rfl, rfl⟩
    obtain ⟨hf, hfaults⟩ := List.forall_mem_cons.1 hfault
    have hrest := ih hfaults (before ++ c :: cs.take (classify c cs).2)
    have htext : c :: cs = c :: cs.take (classify c cs).2 ++ cs.drop (classify c cs).2 := by
      rw [List.cons_append, List.take_append_drop]
    rw [tokensFrom, ← Place.after_append, htext]
    cases ht : token? (.after .first before)
        ⟨(classify c cs).1, c :: cs.take (classify c cs).2⟩ with
    | some t =>
      have hstands := stands_of_classify ht
      exact hrest.cons hstands
    | none =>
      have htoken (kind lexeme) : (classify c cs).1 ≠ .token kind lexeme := by
        intro h
        rw [h] at ht
        cases ht
      exact hrest.skip fun gap after hgap => filler_of_classify htoken hf hgap

end Piece

/-! ### Tokens of a source -/

/-- **Tokens tile their source.** Every token for text stands where its offsets, its line and its
column say and shows its lexeme there, and a string shows its quotation marks. The tokens follow one
another, and what is in front of them, between them and behind them is filling text. The end of
input stands at the end of the source. -/
theorem Token.tiles_lex {source : List Char} (he : (lex 0 source).error = none) :
    (∀ t ∈ (lex 0 source).tokens, t.kind.isText = true → t.Sits (Source.normalize source)) ∧
    ((lex 0 source).tokens.filter (·.kind.isText)).IsChain (fun t u => t.stop ≤ u.start) ∧
    (∀ front rest, (lex 0 source).tokens.filter (·.kind.isText) = front ++ rest →
      Source.Filler
        ((Source.normalize source).drop (startOf (Source.normalize source).length rest))
        (Source.slice (Source.normalize source) (stopOf 0 front)
          (startOf (Source.normalize source).length rest))) ∧
    (lex 0 source).tokens.getLast? = some
      ⟨.eof, "", Source.lineAt (Source.normalize source) (Source.normalize source).length,
        Source.columnAt (Source.normalize source) (Source.normalize source).length,
        (Source.normalize source).length, (Source.normalize source).length⟩ := by
  obtain ⟨s, hfeed, hrun⟩ := Layout.exists_feedAll he
  have htexts : (lex 0 source).tokens.filter (·.kind.isText) =
      Piece.tokensFrom .first (Piece.split (Source.normalize source)) := by
    rw [← Layout.texts_feedAll (fun _ => Piece.isText_of_mem_split) hfeed,
      ← (Layout.AddsLines.finish s).texts_eq, lex, hrun]
    rfl
  have htiled := Piece.tiled_split (Layout.form_ne_fault_of_runAll he) []
  rw [Place.after_nil, ← htexts] at htiled
  refine ⟨fun t ht hk => htiled.sits t (List.mem_filter.2 ⟨ht, hk⟩), htiled.isChain,
    fun front rest hts => htiled.filler hts, ?_⟩
  have hplace : s.place = .after .first (Source.normalize source) := by
    rw [Layout.place_feedAll hfeed, Piece.flatMap_text_split]
  have htokens : (lex 0 source).tokens = s.finish.tokens.toList := by rw [lex, hrun]
  rw [htokens, Layout.toList_finish, List.getLast?_concat, Layout.eofAt, hplace,
    Place.offset_after_first, Place.line_after_first, Place.column_after_first, Source.lineAt,
    Source.columnAt, List.take_length]

/-- A comment inside of a comment, a string in single quotes and a comment at the end of a line. -/
theorem Token.tiles_lex_comments :
    let source := "/* a /* b */ */ x = 'y' // z\n".toList
    let x : Token := ⟨.identifier, "x", 1, 17, 16, 17⟩
    let y : Token := ⟨.string, "y", 1, 21, 20, 23⟩
    (lex 0 source).error = none ∧
    (lex 0 source).tokens.filter (·.kind.isText) = [x, ⟨.operator, "=", 1, 19, 18, 19⟩, y] ∧
    y.Spells "'y'".toList ∧
    Source.Filler "x = 'y' // z\n".toList "/* a /* b */ */ ".toList ∧
    Source.Filler [] " // z\n".toList := by
  intro source x y
  have he : (lex 0 source).error = none := by with_unfolding_all decide
  have hts : (lex 0 source).tokens.filter (·.kind.isText) =
      [x, ⟨.operator, "=", 1, 19, 18, 19⟩, y] := by with_unfolding_all decide
  have hy : y ∈ (lex 0 source).tokens := by with_unfolding_all decide
  have hnormal : Source.normalize source = source := by with_unfolding_all decide
  obtain ⟨hsits, -, hgaps, -⟩ := tiles_lex he
  rw [hnormal] at hsits hgaps
  have hlast := hgaps _ [] (hts.trans (List.append_nil _).symm)
  exact ⟨he, hts, (hsits y hy rfl).spells, hgaps [] _ hts, hlast⟩

end Pine
