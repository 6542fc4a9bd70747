import Pine.Proofs.Compile.Limits

/-!
# Neighbours of line structure

A line ends behind text, blocks open and close at the start of a line, and a block starts with text.
The layout looks no further than one token back and one piece ahead, so the shape is carried by a
condition on the state between two pieces: if the last token opens or closes a block, then the next
piece is code. Inside of brackets there is no line structure at all, except for what the end of the
source adds.
-/

namespace Pine

open List

/-! ### The shape of tokens -/

namespace Token

/-- What line structure asks of its neighbours. -/
structure Follows (t u : Token) : Prop where
  /-- A line ends behind text. -/
  newline : u.kind = .newline → t.kind.isText = true
  /-- A block opens at the start of a line. -/
  indent : u.kind = .indent → t.kind = .newline
  /-- Blocks close at the start of a line. -/
  dedent : u.kind = .dedent → t.kind = .newline ∨ t.kind = .dedent
  /-- A block starts with text. -/
  text : t.kind = .indent → u.kind.isText = true

/-- The kinds that can come first. -/
def Kind.starts (k : Kind) : Bool := k ≠ .newline && k ≠ .dedent

/-- Tokens that suit their neighbours. -/
structure Shaped (ts : List Token) : Prop where
  /-- The first one needs nothing in front of it. -/
  first : ∀ t ∈ ts.head?, t.kind.starts = true
  /-- Every other one suits the one in front of it. -/
  chain : ts.IsChain Follows

variable {ts us : List Token} {t : Token}

theorem shaped_nil : Shaped [] := ⟨by simp, .nil⟩

theorem Shaped.append (h : Shaped ts) (hus : us.IsChain Follows)
    (hseam : ∀ t ∈ ts.getLast?, ∀ u ∈ us.head?, Follows t u)
    (hfirst : ts = [] → ∀ u ∈ us.head?, u.kind.starts = true) : Shaped (ts ++ us) := by
  refine ⟨fun t ht => ?_, h.chain.append hus hseam⟩
  cases ts with
  | nil => exact hfirst rfl t ht
  | cons u ts => exact h.first t ht

theorem Shaped.concat (h : Shaped ts) (hlast : ∀ u ∈ ts.getLast?, Follows u t)
    (hfirst : ts = [] → t.kind.starts = true) : Shaped (ts ++ [t]) := by
  refine h.append (.singleton t) (fun u hu v hv => ?_) fun hnil v hv => ?_
  · obtain rfl := Option.some.inj hv
    exact hlast u hu
  · obtain rfl := Option.some.inj hv
    exact hfirst hnil

/-- Text stands behind everything. -/
theorem Follows.of_isText {u : Token} (h : u.kind.isText = true) (t : Token) : Follows t u := by
  refine ⟨fun hk => ?_, fun hk => ?_, fun hk => ?_, fun _ => h⟩
  all_goals
    rw [hk] at h
    cases h

/-- Blocks close in a row behind the end of a line. -/
theorem Shaped.dedents (h : Shaped ts) (hlast : ∀ u ∈ ts.getLast?, u.kind = .newline)
    (ht : t.kind = .dedent) {n : Nat} (hfirst : ts = [] → n = 0) :
    Shaped (ts ++ List.replicate n t) := by
  have hfollows {u : Token} (hu : u.kind = .newline ∨ u.kind = .dedent) : Follows u t := by
    refine ⟨?_, ?_, fun _ => hu, ?_⟩
    · rw [ht]
      exact nofun
    · rw [ht]
      exact nofun
    · rcases hu with hu | hu <;> rw [hu] <;> exact nofun
  refine h.append (isChain_replicate_of_rel n (hfollows (.inr ht))) (fun u hu v hv => ?_)
    fun hnil v hv => ?_
  · rw [eq_of_mem_replicate (mem_of_mem_head? hv)]
    exact hfollows (.inl (hlast u hu))
  · rw [hfirst hnil] at hv
    cases hv

/-! ### Brackets -/

/-- Line structure stands where no bracket is open, if the tokens start at the given level. -/
def Outside (level : Nat) : List Token → Prop
  | [] => True
  | t :: ts => (t.kind.isLayout = true → level = 0) ∧ Outside (Layout.nest t.kind level) ts

theorem outside_append : {level : Nat} → {ts : List Token} →
    (Outside level (ts ++ us) ↔ Outside level ts ∧ Outside (levelAfter level ts) us)
  | _, [] => (iff_of_eq (true_and _)).symm
  | level, t :: ts => by
    rw [cons_append, Outside, Outside, outside_append, and_assoc]
    rfl

theorem outside_of_forall {level : Nat} (h : ∀ t ∈ ts, t.kind.isLayout = true)
    (hlevel : level = 0) : Outside level ts := by
  subst hlevel
  induction ts with
  | nil => exact trivial
  | cons t ts ih =>
    obtain ⟨ht, hts⟩ := forall_mem_cons.1 h
    have hnest : Layout.nest t.kind 0 = 0 := by
      cases hk : t.kind <;> simp_all [Layout.nest, Kind.isLayout]
    exact ⟨fun _ => rfl, hnest.symm ▸ ih hts⟩

/-- What the end of a source of so many characters adds: the end of the last line if it has not
ended before, the ends of the open blocks, and the end of input. -/
structure IsTail (length : Nat) (ts : List Token) : Prop where
  /-- The kinds in their order. -/
  kinds : ∃ lines blocks, lines ≤ 1 ∧ ts.map (·.kind) =
    List.replicate lines .newline ++ List.replicate blocks .dedent ++ [.eof]
  /-- All stand at the end of the source. -/
  stops : ∀ t ∈ ts, t.stop = length

end Token

/-! ### Layout -/

namespace Layout

/-- The tokens so far suit their neighbours and stand outside of brackets, and a block has just been
opened or closed only if code comes next. -/
structure Laid (s : Layout) (next : Option Piece) : Prop where
  balanced : s.Balanced
  shaped : Token.Shaped s.tokens.toList
  outside : Token.Outside 0 s.tokens.toList
  ready : ∀ t ∈ s.tokens.toList.getLast?, t.kind = .indent ∨ t.kind = .dedent →
    next.any isCode = true

/-- At the end of a line, one more token says so, unless the last one does. -/
theorem exists_endLine (s : Layout) (stop : Nat) : ∃ n ≤ 1, (s.endLine stop).tokens.toList =
    s.tokens.toList ++
      List.replicate n ⟨.newline, "\n", s.place.line, s.place.column, stop - 1, stop⟩ := by
  unfold endLine
  split
  · exact ⟨0, Nat.zero_le 1, by simp⟩
  · split
    · exact ⟨0, Nat.zero_le 1, by simp⟩
    · exact ⟨1, Nat.le_refl 1, by simp⟩

theorem getLast?_endLine (s : Layout) (stop : Nat) :
    ∀ t ∈ (s.endLine stop).tokens.toList.getLast?, t.kind = .newline := by
  rw [Array.getLast?_toList]
  exact kind_back?_endLine s stop

theorem shaped_endLine {s : Layout} (h : Token.Shaped s.tokens.toList)
    (hlast : ∀ t ∈ s.tokens.toList.getLast?, t.kind.isText = true ∨ t.kind = .newline)
    (stop : Nat) : Token.Shaped (s.endLine stop).tokens.toList := by
  unfold endLine
  split
  · exact h
  · next t ht =>
    split
    · exact h
    · next hk =>
      rw [← Array.getLast?_toList] at ht
      have htext : t.kind.isText = true := (hlast t ht).resolve_right hk
      rw [Array.toList_push]
      refine h.concat (fun u hu => ?_) fun hnil => ?_
      · obtain rfl : t = u := Option.some.inj (ht.symm.trans hu)
        refine ⟨fun _ => htext, nofun, nofun, fun hi => ?_⟩
        rw [hi] at htext
        cases htext
      · rw [hnil] at ht
        cases ht

/-- Where no token has been made, no block is open. -/
theorem Balanced.widths_eq_nil {s : Layout} (h : s.Balanced) (ht : s.tokens.toList = []) :
    s.widths = [] := by
  have hblocks := h.blocks
  rw [ht] at hblocks
  exact length_eq_zero_iff.1 hblocks.symm

namespace Laid

variable {s : Layout} {p : Piece} {next : Option Piece}

/-- Where the last token neither opens nor closes a block, anything may come next. -/
theorem of_last (hb : s.Balanced) (hs : Token.Shaped s.tokens.toList)
    (ho : Token.Outside 0 s.tokens.toList)
    (hlast : ∀ t ∈ s.tokens.toList.getLast?, t.kind.isText = true ∨ t.kind = .newline)
    (next : Option Piece) : s.Laid next := by
  refine ⟨hb, hs, ho, fun t ht hk => ?_⟩
  obtain htext | hline := hlast t ht
  · rcases hk with hk | hk <;> rw [hk] at htext <;> cases htext
  · rcases hk with hk | hk <;> rw [hk] at hline <;> cases hline

/-- In front of a piece that is no code the last token is text or ends a line. -/
theorem last (h : s.Laid next) (hnext : next.any isCode = false) :
    ∀ t ∈ s.tokens.toList.getLast?, t.kind.isText = true ∨ t.kind = .newline := by
  intro t ht
  have heof := h.balanced.eof t (mem_of_getLast? ht)
  have hready := h.ready t ht
  rw [hnext] at hready
  cases hk : t.kind <;> simp_all [Token.Kind.isText, Token.Kind.isLayout]

/-- An indentation behind the end of a line. -/
theorem openLine (hb : s.Balanced) (hs : Token.Shaped s.tokens.toList)
    (ho : Token.Outside 0 s.tokens.toList) (hn : s.nesting = 0)
    (hlast : ∀ t ∈ s.tokens.toList.getLast?, t.kind = .newline) (width : Nat)
    (next : Option Piece) : (s.openLine width next).1.Laid next := by
  have hlevel : Token.levelAfter 0 s.tokens.toList = 0 := hb.nesting.trans hn
  have hbalanced := hb.openLine width next
  revert hbalanced
  unfold Layout.openLine
  split
  · next hcode =>
    have hready {ts : List Token} : ∀ t ∈ ts.getLast?, t.kind = .indent ∨ t.kind = .dedent →
        next.any isCode = true := fun _ _ _ => hcode
    unfold Layout.indentTo
    split <;> intro hbalanced
    · refine ⟨hbalanced, ?_, ?_, hready⟩
      · change Token.Shaped (s.tokens.push _).toList
        rw [Array.toList_push]
        exact hs.concat (fun u hu => ⟨nofun, fun _ => hlast u hu, nofun, fun hi => by
          rw [hlast u hu] at hi
          cases hi⟩) fun _ => rfl
      · change Token.Outside 0 (s.tokens.push _).toList
        rw [Array.toList_push]
        exact Token.outside_append.2 ⟨ho, fun _ => hlevel, trivial⟩
    · rw [closeTo_eq] at hbalanced ⊢
      refine ⟨hbalanced, ?_, ?_, hready⟩
      · rw [Array.toList_appendList]
        exact hs.dedents hlast rfl fun hnil => by rw [hb.widths_eq_nil hnil]; rfl
      · rw [Array.toList_appendList]
        refine Token.outside_append.2 ⟨ho, Token.outside_of_forall (fun t ht => ?_) hlevel⟩
        rw [eq_of_mem_replicate ht]
        rfl
  · exact fun _ => of_last hb hs ho (fun t ht => .inr (hlast t ht)) next

/-- A piece that makes no token. -/
theorem skip (h : s.Laid (some p)) (hp : isCode p = false) (text : List Char)
    (next : Option Piece) : (s.skip text).Laid next :=
  of_last (s := s.skip text) (h.balanced.skip text) h.shaped h.outside (h.last hp) next

/-- **Every piece keeps the shape.** -/
theorem step (h : s.Laid (some p)) (hk : p.IsText) (he : (s.step p next).2 = none) :
    (s.step p next).1.Laid next := by
  have hbalanced := h.balanced.step hk next
  unfold Layout.step at he hbalanced ⊢
  split
  iterate 3
    next hf => exact h.skip (by simp [isCode, hf]) p.text next
  · next hf =>
    have hcode : isCode p = false := by simp [isCode, hf]
    split
    · exact h.skip hcode p.text next
    · next hn =>
      have hlast := h.last hcode
      have hline := getLast?_endLine s (s.place.offset + 1)
      have houtside : Token.Outside 0 (s.endLine (s.place.offset + 1)).tokens.toList := by
        obtain ⟨n, -, hn'⟩ := exists_endLine s (s.place.offset + 1)
        rw [hn']
        refine Token.outside_append.2 ⟨h.outside, Token.outside_of_forall (fun t ht => ?_) ?_⟩
        · rw [eq_of_mem_replicate ht]
          rfl
        · rw [h.balanced.nesting]
          omega
      refine openLine (s := (s.endLine _).skip p.text) ((h.balanced.endLine _).skip p.text)
        (shaped_endLine h.shaped hlast _) houtside ?_ hline _ next
      exact (endLine_frame ..).2.trans (by omega)
  · next kind lexeme hf =>
    have htext := hk kind lexeme hf
    have hstart : kind.starts = true := by
      cases kind <;> first | rfl | cases htext
    have hlayout : kind.isLayout = false := by
      cases kind <;> first | rfl | cases htext
    rw [hf] at hbalanced
    refine of_last hbalanced ?_ ?_ ?_ next
    · change Token.Shaped (s.tokens.push _).toList
      rw [Array.toList_push]
      exact h.shaped.concat (fun u _ => .of_isText htext u) fun _ => hstart
    · change Token.Outside 0 (s.tokens.push _).toList
      rw [Array.toList_push]
      refine Token.outside_append.2 ⟨h.outside, fun hl => ?_, trivial⟩
      rw [hlayout] at hl
      cases hl
    · intro t ht
      change t ∈ (s.tokens.push _).toList.getLast? at ht
      rw [Array.toList_push, getLast?_concat] at ht
      obtain rfl := Option.some.inj ht
      exact .inl htext
  · next hf =>
    rw [hf] at he
    cases he

/-- **All pieces keep the shape.** -/
theorem feed {after : Option Piece} : {ps : List Piece} → {s s' : Layout} →
    s.Laid (ps.head?.or after) →
    (∀ p ∈ ps, p.IsText) →
    s.feed after ps = (s', none) → s'.Laid after
  | [], _, _, h, _, hfeed => by
    cases hfeed
    exact h
  | p :: ps, s, s', h, hk, hfeed => by
    obtain ⟨hp, hps⟩ := forall_mem_cons.1 hk
    unfold Layout.feed at hfeed
    split at hfeed
    · cases hfeed
    · next u hu =>
      have hlaid : (s.step p (ps.head?.or after)).1.Laid (ps.head?.or after) :=
        h.step hp (congrArg Prod.snd hu)
      rw [hu] at hlaid
      exact feed hlaid hps hfeed

/-- The pieces of a source make tokens that have their shape. -/
theorem feedAll {ps : List Piece} (hk : ∀ p ∈ ps, p.IsText)
    (hfeed : Layout.feedAll none ps = (s, none)) : s.Laid none := by
  have hempty (next : Option Piece) : Laid {} next :=
    of_last .initial Token.shaped_nil trivial (fun _ ht => by cases ht) next
  cases ps with
  | nil =>
    cases hfeed
    exact hempty none
  | cons p ps =>
    rw [Layout.feedAll] at hfeed
    split at hfeed
    · split at hfeed
      · cases hfeed
      · next u hu =>
        have hlaid := openLine (Balanced.initial.skip p.text) Token.shaped_nil trivial rfl
          (fun _ ht => by cases ht) (width p.text) (ps.head?.or none)
        rw [hu] at hlaid
        exact feed hlaid (forall_mem_cons.1 hk).2 hfeed
    · exact feed (hempty _) hk hfeed

end Laid

/-- **The end of a source** adds its tokens in shape. -/
theorem shaped_finish {s : Layout} (h : s.Laid none) :
    Token.Shaped s.finish.tokens.toList := by
  have hlast := getLast?_endLine s s.place.offset
  have hended := shaped_endLine h.shaped (h.last rfl) s.place.offset
  have hblocks (hnil : (s.endLine s.place.offset).tokens.toList = []) :
      (s.endLine s.place.offset).widths.length = 0 := by
    rw [(h.balanced.endLine s.place.offset).widths_eq_nil hnil]
    rfl
  rw [toList_finish]
  refine (hended.dedents hlast (t := dedentAt s.place) rfl hblocks).concat
    (fun u hu => ⟨nofun, nofun, nofun, fun hi => ?_⟩) fun _ => rfl
  -- the last token closes a block or ends a line
  rw [getLast?_append] at hu
  obtain hu | ⟨-, hu⟩ := Option.or_eq_some_iff.1 hu
  · rw [eq_of_mem_replicate (mem_of_getLast? hu)] at hi
    cases hi
  · rw [hlast u hu] at hi
    cases hi

/-- **The end of a source** adds a tail. -/
theorem isTail_finish (s : Layout) : ∃ tail, s.finish.tokens.toList = s.tokens.toList ++ tail ∧
    Token.IsTail s.place.offset tail := by
  obtain ⟨n, hn, hline⟩ := exists_endLine s s.place.offset
  have htail := toList_finish s
  rw [hline, append_assoc, append_assoc] at htail
  refine ⟨_, htail, ⟨n, (s.endLine s.place.offset).widths.length, hn, ?_⟩, fun t ht => ?_⟩
  · simp only [map_append, map_replicate, append_assoc]
    rfl
  · simp only [mem_append, mem_replicate, mem_singleton] at ht
    rcases ht with ⟨-, rfl⟩ | ⟨-, rfl⟩ | rfl <;> rfl

end Layout

/-! ### Tokens of a source -/

namespace Token

theorem Outside.level_eq_zero {level : Nat} {front rest : List Token} {t : Token}
    (h : Outside level (front ++ t :: rest)) (ht : t.kind.isLayout = true) :
    levelAfter level front = 0 :=
  (outside_append.1 h).2.1 ht

/-- **Line structure stands where the grammar expects it.** In the tokens of a source, a line ends
behind text, a block opens at the start of the source or behind the end of a line and starts with
text, and blocks close behind the end of a line or of a block. In front of the tail that the end of
the source adds, no line structure stands inside of brackets. -/
theorem follows_lex {limit : Nat} {source : List Char} (he : (lex limit source).error = none) :
    (∀ t ∈ (lex limit source).tokens.head?, t.kind ≠ .newline ∧ t.kind ≠ .dedent) ∧
    (lex limit source).tokens.IsChain Follows ∧
    ∃ body tail, (lex limit source).tokens = body ++ tail ∧
      IsTail (Source.normalize source).length tail ∧
      ∀ front t rest, body = front ++ t :: rest → t.kind.isLayout = true →
        levelAfter 0 front = 0 := by
  have hlex : lex 0 source = lex limit source := lex_of_limit (.inl rfl) he
  rw [← hlex] at he ⊢
  have hk (p) (hp : p ∈ Piece.split (Source.normalize source)) : p.IsText :=
    Piece.isText_of_mem_split hp
  obtain ⟨s, hfeed, hrun⟩ := Layout.exists_feedAll he
  have hlaid := Layout.Laid.feedAll hk hfeed
  have hplace : s.place.offset = (Source.normalize source).length := by
    rw [Layout.place_feedAll hfeed, Place.offset_after, Piece.flatMap_text_split]
    exact Nat.zero_add _
  have hts : (lex 0 source).tokens = s.finish.tokens.toList := by rw [lex, hrun]
  have hshaped := Layout.shaped_finish hlaid
  obtain ⟨tail, htail, histail⟩ := Layout.isTail_finish s
  rw [hts, ← hplace]
  refine ⟨fun t ht => ?_, hshaped.chain, s.tokens.toList, tail, htail, histail, ?_⟩
  · simpa [Kind.starts] using hshaped.first t ht
  · rintro front t rest hbody ht
    have houtside := hlaid.outside
    rw [hbody] at houtside
    exact houtside.level_eq_zero ht

/-- The first line opens a block, the second one goes on inside of brackets, and the source ends
inside of brackets that nothing closes. -/
theorem follows_lex_open :
    let source := "  if f(a,\n b)\n    g([\n".toList
    (lex 0 source).error = none ∧
    (lex 0 source).tokens.map (·.kind) =
      [.indent, .keyword, .identifier, .lparen, .identifier, .comma, .identifier, .rparen, .newline,
        .indent, .identifier, .lparen, .lbracket, .newline, .dedent, .dedent, .eof] ∧
    (lex 0 source).tokens.IsChain Follows ∧
    ∃ body tail, (lex 0 source).tokens = body ++ tail ∧ IsTail 22 tail ∧
      ∀ front t rest, body = front ++ t :: rest → t.kind.isLayout = true →
        levelAfter 0 front = 0 := by
  intro source
  have he : (lex 0 source).error = none := by with_unfolding_all decide
  have hlength : (Source.normalize source).length = 22 := by with_unfolding_all decide
  obtain ⟨-, hchain, hbody⟩ := follows_lex he
  rw [hlength] at hbody
  exact ⟨he, by with_unfolding_all decide, hchain, hbody⟩

end Token

end Pine
