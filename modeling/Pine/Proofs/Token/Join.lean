import Mathlib.Data.List.TakeWhile
import Pine.Proofs.Source.Normalize
import Pine.Proofs.Token.Balance
import Pine.Proofs.Token.Cut

/-!
# The tokens of two sources in a row

A source that ends with a newline and leaves no bracket open brings the layout back to its first
state: the next line that starts at the margin closes all open blocks, just as the end of input
does. So the tokens of two sources in a row are those of the first one without its end of input,
followed by those of the second one, moved to their new place.
-/

namespace Pine

open List

/-! ### Moving -/

/-- A token of a text that stands after `offset` characters on `lines` lines. -/
def Token.shift (offset lines : Nat) (t : Token) : Token :=
  { t with line := t.line + lines, start := t.start + offset, stop := t.stop + offset }

namespace Place

/-- A place of a text that stands after `offset` characters on `lines` lines. -/
def shift (offset lines : Nat) (p : Place) : Place :=
  ⟨p.offset + offset, p.line + lines, p.column⟩

theorem after_shift (offset lines : Nat) (p : Place) (cs : List Char) :
    (p.shift offset lines).after cs = (p.after cs).shift offset lines := by
  induction cs generalizing p with
  | nil => rfl
  | cons c cs ih =>
    have hnext : (p.shift offset lines).next c = (p.next c).shift offset lines := by
      unfold next shift
      split <;> simp only [Nat.add_right_comm]
    rw [after_cons, after_cons, hnext, ih]

theorem offset_after (p : Place) (cs : List Char) :
    (p.after cs).offset = p.offset + cs.length := by
  induction cs generalizing p with
  | nil => rfl
  | cons c cs ih =>
    have hnext : (p.next c).offset = p.offset + 1 := by
      unfold next
      split <;> rfl
    rw [after_cons, ih, hnext, length_cons]
    omega

theorem line_after (p : Place) (cs : List Char) :
    (p.after cs).line = p.line + cs.count '\n' := by
  induction cs generalizing p with
  | nil => rfl
  | cons c cs ih =>
    rw [after_cons, ih, count_cons]
    unfold next
    split
    · next h => simp [h]; omega
    · next h => simp [h]

/-- A text that ends with a newline is followed by a text that starts at the margin. -/
theorem after_of_endsLine {cs : List Char} (h : Piece.EndsLine cs) :
    first.after cs = first.shift cs.length (cs.count '\n') := by
  obtain ⟨xs, rfl⟩ := h.exists_eq
  have hc : (first.after (xs ++ ['\n'])).column = first.column := by
    rw [after_append]
    rfl
  have ho := offset_after first (xs ++ ['\n'])
  have hl := line_after first (xs ++ ['\n'])
  unfold shift
  rw [← ho, ← hl, ← hc]

end Place

/-! ### Two runs over the same pieces -/

namespace Layout

/-- The second layout has gone through the same pieces as the first one, `offset` characters and
`lines` lines later and with the tokens `ts` before; and some tokens have been made since. -/
structure Shifted (ts : List Token) (offset lines : Nat) (s s' : Layout) : Prop where
  place : s'.place = s.place.shift offset lines
  widths : s'.widths = s.widths
  nesting : s'.nesting = s.nesting
  tokens : s'.tokens.toList = ts ++ s.tokens.toList.map (Token.shift offset lines)
  started : s.tokens.toList ≠ []

namespace Shifted

variable {ts : List Token} {offset lines : Nat} {s s' : Layout}

/-- One more token. -/
theorem tokens_push (h : s'.tokens.toList = ts ++ s.tokens.toList.map (Token.shift offset lines))
    {t t' : Token} (ht : t' = t.shift offset lines) :
    (s'.tokens.push t').toList = ts ++ (s.tokens.push t).toList.map (Token.shift offset lines) := by
  rw [Array.toList_push, Array.toList_push, h, ht, map_append, append_assoc]
  rfl

theorem skip (h : s.Shifted ts offset lines s') (text : List Char) :
    (s.skip text).Shifted ts offset lines (s'.skip text) :=
  ⟨by rw [Layout.skip, Layout.skip, h.place, Place.after_shift], h.widths, h.nesting, h.tokens,
    h.started⟩

theorem emit (h : s.Shifted ts offset lines s') (kind : Token.Kind) (lexeme : String)
    (stop : Place) :
    (s.emit kind lexeme stop).Shifted ts offset lines
      (s'.emit kind lexeme (stop.shift offset lines)) := by
  refine ⟨rfl, h.widths, h.nesting, tokens_push h.tokens ?_, ?_⟩
  · rw [h.place]
    rfl
  · simp [Layout.emit]

theorem back? (h : s.Shifted ts offset lines s') :
    s'.tokens.back? = s.tokens.back?.map (Token.shift offset lines) := by
  rw [← Array.getLast?_toList, ← Array.getLast?_toList, h.tokens, getLast?_append,
    getLast?_map]
  cases hl : s.tokens.toList.getLast? with
  | none => exact absurd (getLast?_eq_none_iff.1 hl) h.started
  | some t => rfl

theorem endLine (h : s.Shifted ts offset lines s') (stop : Nat) :
    (s.endLine stop).Shifted ts offset lines (s'.endLine (stop + offset)) := by
  unfold Layout.endLine
  rw [h.back?]
  cases s.tokens.back? with
  | none => exact h
  | some t =>
    change Shifted ts offset lines (if t.kind = .newline then s else _)
      (if t.kind = .newline then s' else _)
    split
    · exact h
    · refine ⟨h.place, h.widths, h.nesting, tokens_push h.tokens ?_, by simp⟩
      simp only [h.place, Place.shift, Token.shift, Token.mk.injEq, true_and]
      omega

theorem indentTo (h : s.Shifted ts offset lines s') (width : Nat) :
    (s.indentTo width).1.Shifted ts offset lines (s'.indentTo width).1 ∧
      ((s'.indentTo width).2 = none ↔ (s.indentTo width).2 = none) := by
  have ht : s'.top = s.top := by rw [top, top, h.widths]
  unfold Layout.indentTo
  rw [ht]
  split
  · have he := h.emit .indent "" s.place
    rw [← h.place] at he
    exact ⟨⟨he.place, congrArg (width :: ·) h.widths, he.nesting, he.tokens, he.started⟩, Iff.rfl⟩
  · rw [closeTo_eq, closeTo_eq, h.widths]
    have hd : dedentAt s'.place = (dedentAt s.place).shift offset lines := by
      rw [h.place]
      rfl
    refine ⟨⟨h.place, rfl, h.nesting, ?_, ?_⟩, ?_⟩
    · rw [Array.toList_appendList, Array.toList_appendList, h.tokens, hd, map_append,
        map_replicate, append_assoc]
    · rw [Array.toList_appendList]
      exact append_ne_nil_of_left_ne_nil h.started _
    · simp [top]

theorem openLine (h : s.Shifted ts offset lines s') (width : Nat) (next : Option Piece) :
    (s.openLine width next).1.Shifted ts offset lines (s'.openLine width next).1 ∧
      ((s'.openLine width next).2 = none ↔ (s.openLine width next).2 = none) := by
  unfold Layout.openLine
  split
  · exact h.indentTo width
  · exact ⟨h, Iff.rfl⟩

/-- **A step does the same at both places.** -/
theorem step (h : s.Shifted ts offset lines s') (p : Piece) (next : Option Piece) :
    (s.step p next).1.Shifted ts offset lines (s'.step p next).1 ∧
      ((s'.step p next).2 = none ↔ (s.step p next).2 = none) := by
  unfold Layout.step
  rw [h.nesting]
  split
  iterate 3 exact ⟨h.skip p.text, Iff.rfl⟩
  · split
    · exact ⟨h.skip p.text, Iff.rfl⟩
    · have ho : s'.place.offset + 1 = s.place.offset + 1 + offset := by
        simp only [h.place, Place.shift]
        omega
      rw [ho]
      exact ((h.endLine _).skip p.text).openLine _ next
  · next kind lexeme _ =>
    have he := h.emit kind lexeme (s.place.after p.text)
    rw [← Place.after_shift, ← h.place] at he
    exact ⟨⟨he.place, he.widths, rfl, he.tokens, he.started⟩, Iff.rfl⟩
  · exact ⟨h, by simp⟩

theorem mark (h : s.Shifted ts offset lines s') (kind : Token.Kind) :
    (s.mark kind).Shifted ts offset lines (s'.mark kind) := by
  have he := h.emit kind "" s.place
  rwa [← h.place] at he

theorem finish (h : s.Shifted ts offset lines s') :
    s.finish.Shifted ts offset lines s'.finish := by
  have hfold : (ws : List Nat) → ∀ {s s' : Layout}, s.Shifted ts offset lines s' →
      (ws.foldl (fun s _ => s.mark .dedent) s).Shifted ts offset lines
        (ws.foldl (fun s _ => s.mark .dedent) s') := by
    intro ws
    induction ws with
    | nil => exact fun h => h
    | cons w ws ih => exact fun h => ih (h.mark .dedent)
  have he := h.endLine s.place.offset
  have ho : s'.place.offset = s.place.offset + offset := by rw [h.place, Place.shift]
  rw [← ho] at he
  have hm := (hfold (s.endLine s.place.offset).widths he).mark .eof
  unfold Layout.finish
  dsimp only
  rw [he.widths]
  exact ⟨hm.place, rfl, hm.nesting, hm.tokens, hm.started⟩

/-- **A run does the same at both places.** -/
theorem run : (ps : List Piece) → {s s' : Layout} → s.Shifted ts offset lines s' →
    (s.run 0 ps).1.Shifted ts offset lines (s'.run 0 ps).1 ∧
      ((s'.run 0 ps).2 = none ↔ (s.run 0 ps).2 = none)
  | [], s, s', h => ⟨h.finish, Iff.rfl⟩
  | p :: ps, s, s', h => by
    obtain ⟨hs, he⟩ := h.step p ps.head?
    unfold Layout.run
    generalize s.step p ps.head? = r at hs he ⊢
    generalize s'.step p ps.head? = r' at hs he ⊢
    obtain ⟨t, e⟩ := r
    obtain ⟨t', e'⟩ := r'
    cases e with
    | none =>
      obtain rfl : e' = none := he.2 rfl
      exact run ps hs
    | some e =>
      cases e' with
      | none => exact absurd (he.1 rfl) (by simp)
      | some e' => exact ⟨hs, by simp⟩

end Shifted

/-! ### The seam -/

section Seam

variable {s : Layout}

theorem endLine_eq_self (h : ∀ t ∈ s.tokens.back?, t.kind = .newline) (stop : Nat) :
    s.endLine stop = s := by
  unfold endLine
  cases hb : s.tokens.back? with
  | none => rfl
  | some t => exact if_pos (h t hb)

theorem kind_back?_endLine (s : Layout) (stop : Nat) :
    ∀ t ∈ (s.endLine stop).tokens.back?, t.kind = .newline := by
  unfold endLine
  cases hb : s.tokens.back? with
  | none => simp [hb]
  | some t =>
    dsimp only
    split
    · next hk => simpa [hb] using hk
    · simp

theorem finish_eq (h : ∀ t ∈ s.tokens.back?, t.kind = .newline) :
    s.finish.tokens = (s.tokens ++ List.replicate s.widths.length (dedentAt s.place)).push
      (eofAt s.place) := by
  refine Array.toList_inj.1 ?_
  rw [toList_finish, endLine_eq_self h, Array.toList_push, Array.toList_appendList]

/-- At the margin all blocks are closed. -/
theorem indentTo_zero (h : s.Balanced) :
    s.indentTo 0 = ({ s with
      widths := [],
      tokens := s.tokens ++ List.replicate s.widths.length (dedentAt s.place) }, none) := by
  have hall : ∀ w ∈ s.widths, decide (0 < w) = true := fun w hw => decide_eq_true (h.widths w hw)
  have hdrop : s.widths.dropWhile (0 < ·) = [] := dropWhile_eq_nil_iff.2 hall
  have htake : s.widths.takeWhile (0 < ·) = s.widths := takeWhile_eq_self_iff.2 hall
  rw [indentTo, if_neg (Nat.not_lt_zero _), closeTo_eq, hdrop, htake]
  rfl

/-- After the end of a line at the margin there is nothing or a token that ends a line or a block. -/
theorem isBreak_back? (h : ∀ t ∈ s.tokens.back?, t.kind = .newline) :
    ∀ t ∈ (s.tokens ++ List.replicate s.widths.length (dedentAt s.place)).back?,
      t.kind.isBreak = true := by
  intro t ht
  cases hw : s.widths with
  | nil =>
    rw [hw, length_nil, replicate_zero, Array.appendList_nil] at ht
    rw [h t ht]
    rfl
  | cons w ws =>
    rw [hw, length_cons, ← Array.getLast?_toList, Array.toList_appendList,
      getLast?_append, getLast?_replicate] at ht
    cases ht
    rfl

/-- **A line break with code at the margin after it** closes what an end of input there would
close. -/
theorem step_lineBreak (hb : s.Balanced) (hn : s.nesting = 0) {next : Piece}
    (hc : isCode next = true) :
    ∃ s', s.step Piece.newline next = (s', none) ∧ s'.Balanced ∧ s'.widths = [] ∧
      s'.nesting = 0 ∧ s'.place = s.place.after ['\n'] ∧
      (∀ t ∈ s'.tokens.back?, t.kind.isBreak = true) ∧
      (s.run 0 [Piece.newline]).1.tokens = s'.tokens.push (eofAt s'.place) := by
  obtain ⟨hplace, hnest⟩ := endLine_frame s (s.place.offset + 1)
  have hline := kind_back?_endLine s (s.place.offset + 1)
  have hbal := (hb.endLine (s.place.offset + 1)).skip ['\n']
  have hstep (next : Option Piece) : s.step Piece.newline next =
      ((s.endLine (s.place.offset + 1)).skip ['\n']).openLine 0 next :=
    if_neg (Nat.not_lt_of_le (Nat.le_of_eq hn))
  generalize s.endLine (s.place.offset + 1) = u at *
  refine ⟨_, (hstep next).trans ((if_pos hc).trans (indentTo_zero hbal)), ?_, rfl, ?_, ?_, ?_, ?_⟩
  · have := hbal.indentTo 0
    rwa [indentTo_zero hbal] at this
  · exact hnest.trans hn
  · rw [← hplace]
    rfl
  · exact isBreak_back? hline
  · rw [run, hstep]
    exact finish_eq hline

end Seam

/-! ### Pieces without errors -/

theorem place_openLine (s : Layout) (width : Nat) (next : Option Piece) :
    (s.openLine width next).1.place = s.place := by
  unfold openLine indentTo
  split
  · split <;> rfl
  · rfl

theorem place_step {s : Layout} {p : Piece} {next : Option Piece}
    (h : (s.step p next).2 = none) : (s.step p next).1.place = s.place.after p.text := by
  unfold step at h ⊢
  split
  iterate 3 rfl
  · split
    · rfl
    · rw [place_openLine, skip, (endLine_frame ..).1]
  · rfl
  · next f hf =>
    rw [hf] at h
    cases h

theorem place_feed {after : Option Piece} : (ps : List Piece) → {s s' : Layout} →
    s.feed after ps = (s', none) → s'.place = s.place.after (ps.flatMap Piece.text)
  | [], _, _, h => by cases h; rfl
  | p :: ps, s, s', h => by
    unfold feed at h
    split at h
    · cases h
    · next u hu =>
      have hp := place_step (congrArg Prod.snd hu)
      rw [hu] at hp
      rw [place_feed ps h, hp, flatMap_cons, Place.after_append]

/-- A run without an error meets no fault. -/
theorem form_ne_fault : (ps : List Piece) → {s : Layout} → (s.run 0 ps).2 = none →
    ∀ p ∈ ps, ∀ f, p.form ≠ .fault f
  | [], _, _ => nofun
  | p :: ps, s, h => by
    intro q hq f hf
    unfold run at h
    rcases mem_cons.1 hq with rfl | hq
    · simp [step, hf] at h
    · split at h
      · cases h
      · exact form_ne_fault ps h q hq f hf

theorem form_ne_fault_of_runAll {ps : List Piece} (h : (runAll 0 ps).2 = none) :
    ∀ p ∈ ps, ∀ f, p.form ≠ .fault f := by
  unfold runAll at h
  split at h
  · nofun
  · next p ps =>
    split at h
    · next hb =>
      split at h
      · cases h
      · intro q hq f
        rcases mem_cons.1 hq with rfl | hq
        · rw [hb]
          nofun
        · exact form_ne_fault ps h q hq f
    · exact form_ne_fault _ h

/-- The first line of a source is like the others once its indentation is read. -/
theorem exists_start {p : Piece} {ps : List Piece} (h : (runAll 0 (ps ++ [p])).2 = none)
    (hp : p.form ≠ .blank) :
    ∃ s qs, s.Balanced ∧ (∀ q ∈ qs, q ∈ ps) ∧
      s.place.after (qs.flatMap Piece.text) = Place.first.after (ps.flatMap Piece.text) ∧
      ∀ rs, runAll 0 (ps ++ p :: rs) = run 0 (qs ++ p :: rs) s := by
  cases ps with
  | nil => exact ⟨{}, [], .initial, fun _ hq => hq, rfl, fun rs => if_neg hp⟩
  | cons q qs =>
    by_cases hq : q.form = .blank
    · have hnext (rs : List Piece) : (qs ++ p :: rs).head? = (qs ++ [p]).head? := by
        cases qs <;> rfl
      have hb := (Balanced.initial.skip q.text).openLine (width q.text) (qs ++ [p]).head?
      have hplace := place_openLine (({} : Layout).skip q.text) (width q.text) (qs ++ [p]).head?
      rcases hopen : (({} : Layout).skip q.text).openLine (width q.text) (qs ++ [p]).head?
        with ⟨s, e⟩
      rw [hopen] at hb hplace
      cases e with
      | some e =>
        rw [cons_append, runAll, if_pos hq, hopen] at h
        cases h
      | none =>
        refine ⟨s, qs, hb, fun _ hr => mem_cons_of_mem q hr, ?_, fun rs => ?_⟩
        · rw [flatMap_cons, Place.after_append]
          exact congrArg (Place.after · _) hplace
        · rw [cons_append, runAll, if_pos hq, hnext rs, hopen]
    · exact ⟨{}, q :: qs, .initial, fun _ hr => hr, rfl, fun rs => if_neg hq⟩

/-! ### The first token -/

/-- A layout has gone on: there are more tokens, and those that stand for text start at or after
the place where it was. -/
structure Grows (s s' : Layout) : Prop where
  offset : s.place.offset ≤ s'.place.offset
  tokens : ∃ ts, s'.tokens.toList = s.tokens.toList ++ ts ∧
    ∀ t ∈ ts, t.kind.isText = true → s.place.offset ≤ t.start

namespace Grows

variable {s s' s'' : Layout}

theorem refl (s : Layout) : s.Grows s := ⟨Nat.le_refl _, [], by simp, nofun⟩

theorem trans (h : s.Grows s') (h' : s'.Grows s'') : s.Grows s'' := by
  obtain ⟨ho, ts, ht, hs⟩ := h
  obtain ⟨ho', ts', ht', hs'⟩ := h'
  refine ⟨Nat.le_trans ho ho', ts ++ ts', by rw [ht', ht, append_assoc], fun t hmem hk => ?_⟩
  rcases mem_append.1 hmem with hmem | hmem
  · exact hs t hmem hk
  · have := hs' t hmem hk
    omega

/-- One more token. -/
theorem of_push {t : Token} (ho : s.place.offset ≤ s'.place.offset)
    (ht : s'.tokens = s.tokens.push t) (hs : t.kind.isText = true → s.place.offset ≤ t.start) :
    s.Grows s' :=
  ⟨ho, [t], by rw [ht, Array.toList_push], fun u hu hk => by
    obtain rfl := mem_singleton.1 hu
    exact hs hk⟩

theorem skip (s : Layout) (text : List Char) : s.Grows (s.skip text) := by
  refine ⟨?_, [], by simp [Layout.skip], nofun⟩
  rw [Layout.skip, Place.offset_after]
  omega

theorem endLine (s : Layout) (stop : Nat) : s.Grows (s.endLine stop) := by
  unfold Layout.endLine
  split
  · exact refl s
  · split
    · exact refl s
    · exact of_push (Nat.le_refl _) rfl nofun

theorem closeBlocks (s : Layout) (ws : List Nat) (n : Nat) :
    s.Grows { s with widths := ws, tokens := s.tokens ++ List.replicate n (dedentAt s.place) } := by
  refine ⟨Nat.le_refl _, _, Array.toList_appendList, fun t ht hk => ?_⟩
  rw [eq_of_mem_replicate ht] at hk
  cases hk

theorem openLine (s : Layout) (width : Nat) (next : Option Piece) :
    s.Grows (s.openLine width next).1 := by
  unfold Layout.openLine Layout.indentTo
  split
  · split
    · exact of_push (Nat.le_refl _) rfl nofun
    · rw [closeTo_eq]
      exact closeBlocks s _ _
  · exact refl s

theorem step (s : Layout) (p : Piece) (next : Option Piece) : s.Grows (s.step p next).1 := by
  unfold Layout.step
  split
  iterate 3 exact skip s p.text
  · split
    · exact skip s p.text
    · exact ((endLine s _).trans (skip _ p.text)).trans (openLine _ _ next)
  · refine of_push ?_ rfl fun _ => Int.le_refl _
    rw [Layout.emit, Place.offset_after]
    omega
  · exact refl s

theorem finish (s : Layout) : s.Grows s.finish := by
  have hclose := closeBlocks (s.endLine s.place.offset) (s.endLine s.place.offset).widths
    (s.endLine s.place.offset).widths.length
  unfold Layout.finish
  dsimp only
  rw [foldl_mark]
  exact (endLine s _).trans (hclose.trans (of_push (Nat.le_refl _) rfl nofun))

theorem run_cons {ps : List Piece} (hrun : ∀ s : Layout, s.Grows (s.run 0 ps).1) {p : Piece}
    (h : s.Grows (s'.step p ps.head?).1) : s.Grows (s'.run 0 (p :: ps)).1 := by
  unfold Layout.run
  split
  · next heq => rwa [heq] at h
  · next heq =>
    rw [heq] at h
    exact h.trans (hrun _)

theorem run : (ps : List Piece) → (s : Layout) → s.Grows (s.run 0 ps).1
  | [], s => finish s
  | p :: ps, s => run_cons (run ps) (step s p ps.head?)

end Grows

end Layout

namespace Piece

theorem text_ne_nil {cs : List Char} {p : Piece} {ps : List Piece} (h : split cs = p :: ps) :
    p.text ≠ [] := by
  cases cs with
  | nil => simp [split] at h
  | cons c cs =>
    rw [split] at h
    rw [← (List.cons.inj h).1]
    exact cons_ne_nil _ _

/-- A source that starts with a token at its first character starts with the piece of that token. -/
theorem split_of_start {cs : List Char} {t : Token} {ts : List Token}
    (he : (Layout.runAll 0 (split cs)).2 = none)
    (ht : (Layout.runAll 0 (split cs)).1.tokens.toList = t :: ts) (hs : t.start = 0)
    (hk : t.kind.isText = true) :
    ∃ text ps, split cs = ⟨.token t.kind t.lexeme, text⟩ :: ps := by
  cases hp : split cs with
  | nil =>
    rw [hp] at ht
    cases ht
    cases hk
  | cons p ps =>
    obtain ⟨form, text⟩ := p
    have hpos : 0 < text.length := length_pos_iff.2 (text_ne_nil hp)
    -- all tokens from after the first piece start too late
    have hlate {s : Layout} (h : (({} : Layout).skip text).Grows s) : s.tokens.toList ≠ t :: ts := by
      intro hst
      obtain ⟨new, hnew, hle⟩ := h.tokens
      rw [hst] at hnew
      change t :: ts = new at hnew
      have hle := hle t (hnew ▸ mem_cons_self ..) hk
      rw [Layout.skip, Place.offset_after, hs] at hle
      dsimp only [Place.first] at hle
      omega
    rw [hp, Layout.runAll] at he ht
    cases form with
    | blank =>
      rw [if_pos rfl] at he ht
      have hopen := Layout.Grows.openLine (({} : Layout).skip text) (Layout.width text) ps.head?
      split at ht
      · next heq =>
        rw [heq] at he
        cases he
      · next heq =>
        rw [heq] at hopen
        exact absurd ht (hlate (hopen.trans (Layout.Grows.run ps _)))
    | token kind lexeme =>
      obtain ⟨new, hnew, -⟩ := (Layout.Grows.run ps
        (({} : Layout).step ⟨.token kind lexeme, text⟩ ps.head?).1).tokens
      change _ = _ :: new at hnew
      cases ht.symm.trans hnew
      exact ⟨text, ps, rfl⟩
    | lineBreak =>
      refine absurd ht (hlate (Layout.Grows.run_cons (Layout.Grows.run ps) ?_))
      exact Layout.Grows.openLine _ _ _
    | lineComment | blockComment => exact absurd ht (hlate (Layout.Grows.run ps _))
    | fault f => cases he

theorem isBlank_of_split {cs text : List Char} {kind : Token.Kind} {lexeme : String}
    {ps : List Piece} (h : split cs = ⟨.token kind lexeme, text⟩ :: ps) :
    ∀ c ∈ cs.head?, Source.isBlank c = false := by
  cases cs with
  | nil => nofun
  | cons c cs =>
    intro d hd
    obtain rfl : c = d := Option.some.inj hd
    cases hc : classify c cs with
    | mk form more =>
      rw [split, hc] at h
      cases (List.cons.inj h).1
      refine Bool.eq_false_iff.2 fun hb => ?_
      by_cases hn : c = '\n'
      · rw [classify, if_pos hn] at hc
        cases hc
      · rw [classify, if_neg hn, if_pos hb] at hc
        cases hc

end Piece

/-! ### Two sources -/

/-- Tokens that are a number of whole lines with all their blocks and brackets. -/
structure Token.WholeLines (ts : List Token) : Prop where
  level : levelAfter 0 ts = 0
  blocks : blocksAfter 0 ts = 0
  eof : ∀ t ∈ ts, t.kind ≠ .eof
  last : ∀ t ∈ ts.getLast?, t.kind.isBreak = true

namespace Layout

/-- The brackets that are open before the last line break of a source are open at its end. -/
theorem levelAfter_run_lineBreak {s : Layout} (h : s.Balanced) :
    Token.levelAfter 0 (s.run 0 [Piece.newline]).1.tokens.toList = s.nesting := by
  obtain ⟨u, hstep, hu, hn⟩ : ∃ u, s.step Piece.newline none = (u, none) ∧ u.Balanced ∧
      u.nesting = s.nesting := by
    by_cases hn : 0 < s.nesting
    · exact ⟨s.skip ['\n'], if_pos hn, h.skip _, rfl⟩
    · exact ⟨(s.endLine (s.place.offset + 1)).skip ['\n'], if_neg hn, (h.endLine _).skip _,
        (endLine_frame ..).2⟩
  have hrun : s.run 0 [Piece.newline] = (u.finish, none) := by
    rw [run, head?_nil, hstep]
    rfl
  rw [hrun, levelAfter_finish hu, hn]

/-- **A source that ends with a newline and leaves no bracket open** leaves the layout as it was at
first, if code at the margin follows. -/
theorem exists_seam {ps : List Piece} (next : Piece) (hcode : isCode next = true)
    (htext : ∀ p ∈ ps, p.IsText)
    (he : (runAll 0 (ps ++ [Piece.newline])).2 = none)
    (hl : Token.levelAfter 0 (runAll 0 (ps ++ [Piece.newline])).1.tokens.toList = 0) :
    ∃ s : Layout, Token.WholeLines s.tokens.toList ∧ s.widths = [] ∧ s.nesting = 0 ∧
      s.place = Place.first.after ((ps ++ [Piece.newline]).flatMap Piece.text) ∧
      (runAll 0 (ps ++ [Piece.newline])).1.tokens = s.tokens.push (eofAt s.place) ∧
      ∀ qs, runAll 0 (ps ++ Piece.newline :: next :: qs) = run 0 (next :: qs) s := by
  obtain ⟨s₀, rs, hb₀, hrs, hplace₀, hall⟩ := exists_start he nofun
  have hrun (qs : List Piece) := (hall qs).trans (run_append (Piece.newline :: qs) rs s₀)
  obtain ⟨s, hs⟩ : ∃ s, s₀.feed (some Piece.newline) rs = (s, none) := by
    rw [hrun] at he
    split at he
    · cases he
    · next s hs => exact ⟨s, hs⟩
  have hb : s.Balanced := by
    have := hb₀.feed (some Piece.newline) rs fun p hp => htext p (hrs p hp)
    rwa [hs] at this
  have hrun (qs : List Piece) : runAll 0 (ps ++ Piece.newline :: qs) =
      s.run 0 (Piece.newline :: qs) := by
    rw [hrun, head?_cons, hs]
  have hn : s.nesting = 0 := by
    rw [hrun, levelAfter_run_lineBreak hb] at hl
    exact hl
  obtain ⟨s', hstep, hb', hw, hn', hplace, hlast, htokens⟩ := step_lineBreak hb hn hcode
  refine ⟨s', ⟨hb'.nesting.trans hn', ?_, hb'.eof, ?_⟩, hw, hn', ?_, ?_, fun qs => ?_⟩
  · rw [hb'.blocks, hw]
    rfl
  · rwa [Array.getLast?_toList]
  · rw [hplace, place_feed rs hs, hplace₀, flatMap_append, Place.after_append]
    rfl
  · rw [hrun, htokens]
  · rw [hrun, run, head?_cons, hstep]
    rfl

/-- A source that starts with a token makes the same tokens at every place at the margin. -/
theorem run_token {s : Layout} {offset lines : Nat} (hw : s.widths = []) (hn : s.nesting = 0)
    (hp : s.place = Place.first.shift offset lines) (kind : Token.Kind) (lexeme : String)
    (text : List Char) (ps : List Piece) :
    (s.run 0 (⟨.token kind lexeme, text⟩ :: ps)).1.tokens.toList = s.tokens.toList ++
        (runAll 0 (⟨.token kind lexeme, text⟩ :: ps)).1.tokens.toList.map
          (Token.shift offset lines) ∧
      ((s.run 0 (⟨.token kind lexeme, text⟩ :: ps)).2 = none ↔
        (runAll 0 (⟨.token kind lexeme, text⟩ :: ps)).2 = none) := by
  have h : (({} : Layout).step ⟨.token kind lexeme, text⟩ ps.head?).1.Shifted s.tokens.toList
      offset lines (s.step ⟨.token kind lexeme, text⟩ ps.head?).1 := by
    refine ⟨?_, hw, ?_, ?_, ?_⟩
    · change s.place.after text = (Place.first.after text).shift offset lines
      rw [hp, Place.after_shift]
    · change nest kind s.nesting = nest kind 0
      rw [hn]
    · change (s.tokens.push ⟨kind, lexeme, s.place.line, s.place.column, s.place.offset,
        (s.place.after text).offset⟩).toList = _
      rw [Array.toList_push, hp, Place.after_shift]
      rfl
    · exact cons_ne_nil _ _
  exact ⟨(h.run ps).1.tokens, (h.run ps).2⟩

end Layout

/-- **The tokens of two sources in a row**, if the first one ends with a newline and leaves no
bracket open and the second one starts with a token. -/
theorem Token.lex_append {cs ds : List Char} (hr : '\r' ∉ cs ++ ds) (hm : Source.mark ∉ cs ++ ds)
    (hn : Piece.EndsLine cs) (hc : (Token.lex 0 cs).error = none)
    (hl : levelAfter 0 (Token.lex 0 cs).tokens = 0) (hd : (Token.lex 0 ds).error = none)
    {t : Token} {ts : List Token} (ht : (Token.lex 0 ds).tokens = t :: ts) (hs : t.start = 0)
    (hk : t.kind.isText = true) :
    ∃ us eof, (Token.lex 0 cs).tokens = us ++ [eof] ∧ eof.kind = .eof ∧ WholeLines us ∧
      Token.lex 0 (cs ++ ds) =
        ⟨us ++ (Token.lex 0 ds).tokens.map (shift cs.length (cs.count '\n')), none⟩ := by
  have hnormal {es : List Char} (he : ∀ c ∈ es, c ∈ cs ++ ds) : Source.normalize es = es :=
    Source.normalize_eq_self (fun h => hm (he _ (mem_of_head? h))) fun h => hr (he _ h)
  unfold Token.lex at *
  rw [hnormal fun c h => mem_append_left _ h] at *
  rw [hnormal fun c h => mem_append_right _ h] at *
  rw [hnormal fun c h => h]
  dsimp only at *
  obtain ⟨ps, hps⟩ := Piece.split_eq_concat hn (Layout.form_ne_fault_of_runAll hc)
  obtain ⟨text, qs, hqs⟩ := Piece.split_of_start hd ht hs hk
  rw [Piece.split_append hn (Layout.form_ne_fault_of_runAll hc) (Piece.isBlank_of_split hqs)]
  rw [hps] at hc hl ⊢
  rw [hqs] at hd ht ⊢
  have htext : ∀ p ∈ ps, p.IsText :=
    fun p hp => Piece.isText_of_mem_split (hps ▸ mem_append_left _ hp)
  obtain ⟨s, hwhole, hw, hnest, hplace, htokens, hrun⟩ := Layout.exists_seam
    ⟨.token t.kind t.lexeme, text⟩ rfl htext hc hl
  refine ⟨s.tokens.toList, Layout.eofAt s.place, ?_, rfl, hwhole, ?_⟩
  · rw [htokens, Array.toList_push]
  · rw [← hps, Piece.flatMap_text_split, Place.after_of_endsLine hn] at hplace
    obtain ⟨hsecond, herror⟩ := Layout.run_token hw hnest hplace t.kind t.lexeme text qs
    rw [append_assoc, singleton_append, hrun, hsecond, herror.2 hd]

end Pine
