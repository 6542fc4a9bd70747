import Mathlib.Data.List.Nodup
import Pine.Proofs.Token.Alike

/-!
# Positions of tokens

Every character moves the place of a reader strictly forward, on its line or to the next line. A
token that stands for text holds at least one character, so that the tokens for text stand at
strictly increasing positions. Line structure has no text and may share the position of the token
after it.
-/

namespace Pine

open List

/-! ### The order of positions -/

/-- On an earlier line, or further left on the same one. -/
def Pos.Before (p q : Pos) : Prop := p.line < q.line ∨ p.line = q.line ∧ p.column < q.column

namespace Pos.Before

theorem trans {p q r : Pos} (h : p.Before q) (h' : q.Before r) : p.Before r := by
  unfold Before at *
  omega

theorem ne {p q : Pos} (h : p.Before q) : p ≠ q := by
  rintro rfl
  unfold Before at h
  omega

end Pos.Before

namespace Place

/-- The position of a place. -/
def pos (p : Place) : Pos := ⟨p.line, p.column⟩

theorem before_next (p : Place) (c : Char) : p.pos.Before (p.next c).pos := by
  unfold next
  split
  · exact .inl (Int.lt_succ _)
  · exact .inr ⟨rfl, Int.lt_succ _⟩

theorem before_after (p : Place) : (cs : List Char) → cs ≠ [] → p.pos.Before (p.after cs).pos
  | [c], _ => p.before_next c
  | c :: d :: cs, _ => (p.before_next c).trans (before_after (p.next c) (d :: cs) (by simp))

end Place

/-! ### Layout in order -/

namespace Piece

theorem text_ne_nil_of_mem_split {cs : List Char} {p : Piece} (hp : p ∈ split cs) :
    p.text ≠ [] := by
  fun_induction split cs with
  | case1 => cases hp
  | case2 c cs form more hm ih =>
    rcases mem_cons.1 hp with rfl | hp
    · exact cons_ne_nil _ _
    · exact ih hp

end Piece

/-- A token stands before a position, or at it if the token has no text. -/
def Token.Leads (t : Token) (p : Pos) : Prop :=
  t.pos.Before p ∨ t.kind.isText = false ∧ t.pos = p

namespace Token.Leads

theorem trans_before {t : Token} {p q : Pos} (h : t.Leads p) (hq : p.Before q) : t.Leads q :=
  .inl (h.elim (·.trans hq) fun ht => ht.2 ▸ hq)

theorem before_of_isText {t : Token} {p : Pos} (h : t.Leads p) (ht : t.kind.isText = true) :
    t.pos.Before p :=
  h.resolve_right fun hk => by simp [ht] at hk

end Token.Leads

namespace Layout

/-- The tokens that stand for text so far. -/
def texts (s : Layout) : List Token := s.tokens.toList.filter (·.kind.isText)

/-- The tokens stand in order, and all of them in front of the current place. -/
structure Ordered (s : Layout) : Prop where
  /-- Each comes in front of the ones after it. -/
  pairwise : s.tokens.toList.Pairwise fun t u => t.Leads u.pos
  /-- All come in front of the current place. -/
  leads : ∀ t ∈ s.tokens.toList, t.Leads s.place.pos

theorem AddsLines.texts_eq {s s' : Layout} (h : s.AddsLines s') : s'.texts = s.texts := by
  obtain ⟨ts, ht, hk⟩ := h
  have hnone : ts.filter (·.kind.isText) = [] := by simpa using hk
  rw [texts, ht, filter_append, hnone, List.append_nil, texts]

namespace Ordered

variable {s s' : Layout}

theorem pairwise_of_addsHere (h : s.Ordered) (ha : s.AddsHere s') :
    s'.tokens.toList.Pairwise fun t u => t.Leads u.pos := by
  obtain ⟨ts, ht, hts⟩ := ha
  have hpos (u) (hu : u ∈ ts) : u.pos = s.place.pos := Pos.mk.injEq .. ▸ (hts u hu).2
  rw [ht, pairwise_append]
  refine ⟨h.pairwise, pairwise_of_forall_mem_list fun t hmem u hu => ?_,
    fun t hmem u hu => ?_⟩
  · exact .inr ⟨(hts t hmem).1, (hpos t hmem).trans (hpos u hu).symm⟩
  · exact hpos u hu ▸ h.leads t hmem

theorem of_addsHere (h : s.Ordered) (ha : s.AddsHere s') (hp : s'.place = s.place) :
    s'.Ordered := by
  refine ⟨h.pairwise_of_addsHere ha, ?_⟩
  obtain ⟨ts, ht, hts⟩ := ha
  rw [ht, hp, forall_mem_append]
  exact ⟨h.leads, fun t hmem => .inr ⟨(hts t hmem).1, Pos.mk.injEq .. ▸ (hts t hmem).2⟩⟩

theorem skip (h : s.Ordered) {text : List Char} (ht : text ≠ []) : (s.skip text).Ordered :=
  ⟨h.pairwise, fun t hmem => (h.leads t hmem).trans_before (s.place.before_after text ht)⟩

/-- A token stands at the current place, and the place moves over its text. -/
theorem emit (h : s.Ordered) (kind : Token.Kind) (lexeme : String) {text : List Char}
    (ht : text ≠ []) : (s.emit kind lexeme (s.place.after text)).Ordered := by
  have hplace := s.place.before_after text ht
  unfold Layout.emit
  refine ⟨?_, ?_⟩
  · rw [Array.toList_push, pairwise_append]
    refine ⟨h.pairwise, pairwise_singleton _ _, fun t hmem u hu => ?_⟩
    rw [mem_singleton.1 hu]
    exact h.leads t hmem
  · rw [Array.toList_push, forall_mem_append, forall_mem_singleton]
    exact ⟨fun t hmem => (h.leads t hmem).trans_before hplace, .inl hplace⟩

theorem openLine (h : s.Ordered) (width : Nat) (next : Option Piece) :
    (s.openLine width next).1.Ordered :=
  h.of_addsHere (.openLine s width next) (place_openLine s width next)

theorem step (h : s.Ordered) {p : Piece} (ht : p.text ≠ []) (next : Option Piece) :
    (s.step p next).1.Ordered := by
  unfold Layout.step
  split
  iterate 3 exact h.skip ht
  · split
    · exact h.skip ht
    · have hend := h.of_addsHere (.endLine s (s.place.offset + 1)) (endLine_frame ..).1
      exact (hend.skip ht).openLine _ next
  · next kind lexeme hform =>
    obtain ⟨hpairwise, hleads⟩ := h.emit kind lexeme ht
    exact ⟨hpairwise, hleads⟩
  · exact h

theorem run {limit : Nat} : {ps : List Piece} → (∀ p ∈ ps, p.text ≠ []) → {s : Layout} →
    s.Ordered → (s.run limit ps).1.tokens.toList.Pairwise fun t u => t.Leads u.pos
  | [], _, s, h => h.pairwise_of_addsHere (.finish s)
  | p :: ps, ht, s, h => by
    obtain ⟨ht, hts⟩ := forall_mem_cons.1 ht
    have hstep := h.step ht ps.head?
    unfold Layout.run
    split
    · next heq =>
      rw [heq] at hstep
      exact hstep.pairwise
    · next heq =>
      rw [heq] at hstep
      split
      · exact hstep.pairwise
      · exact run hts hstep

end Ordered

end Layout

/-! ### Tokens of a source -/

/-- **Each token of a source comes in front of the ones after it**, also in front of an error. -/
theorem Token.leads_lex (limit : Nat) (source : List Char) :
    (Token.lex limit source).tokens.Pairwise fun t u => t.Leads u.pos := by
  have ht (p) (hp : p ∈ Piece.split (Source.normalize source)) : p.text ≠ [] :=
    Piece.text_ne_nil_of_mem_split hp
  have hstart : Layout.Ordered {} := ⟨.nil, nofun⟩
  change (Layout.runAll limit (Piece.split (Source.normalize source))).1.tokens.toList.Pairwise _
  generalize Piece.split (Source.normalize source) = ps at ht
  unfold Layout.runAll
  split
  · exact hstart.run ht
  · next p ps =>
    split
    · have hopen := (hstart.skip (ht p (by simp))).openLine (Layout.width p.text) ps.head?
      split
      · next heq =>
        rw [heq] at hopen
        exact hopen.pairwise
      · next heq =>
        rw [heq] at hopen
        exact hopen.run (forall_mem_cons.1 ht).2
    · exact hstart.run ht

/-- **The tokens for text of a source stand at increasing positions**, also in front of an error. -/
theorem Token.pairwise_lex (limit : Nat) (source : List Char) :
    ((Token.lex limit source).tokens.filter (·.kind.isText)).Pairwise fun t u =>
      t.pos.Before u.pos :=
  pairwise_filter.2 ((leads_lex limit source).imp fun h ht _ => h.before_of_isText ht)

/-- **No two tokens for text share a position.** -/
theorem Token.count_pos_lex (limit : Nat) (source : List Char) (x : Pos) :
    (Token.lex limit source).tokens.countP (fun t => t.pos == x && t.kind.isText) ≤ 1 := by
  have hnodup : (((Token.lex limit source).tokens.filter (·.kind.isText)).map Token.pos).Nodup :=
    pairwise_map.2 ((Token.pairwise_lex limit source).imp Pos.Before.ne)
  have hcount := nodup_iff_count_le_one.1 hnodup x
  rw [List.count, countP_map, countP_filter] at hcount
  exact hcount

end Pine
