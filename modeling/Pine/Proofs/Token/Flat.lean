import Pine.Proofs.Token.Balance

/-!
# Blocks open outside of brackets

A line that starts inside of brackets has no indentation: its break is skipped. So every token that
opens a block stands where no bracket is open.
-/

namespace Pine

open List

namespace Token

/-- Every block is opened at bracket level zero. -/
def Flat (tokens : List Token) : Prop :=
  ∀ front t rest, tokens = front ++ t :: rest → t.kind = .indent → levelAfter 0 front = 0

variable {ts us : List Token} {t : Token}

theorem flat_nil : Flat [] := fun _ _ _ h => by simp at h

/-- Tokens that open no block. -/
theorem Flat.append (h : Flat ts) (hus : ∀ u ∈ us, u.kind ≠ .indent) : Flat (ts ++ us) := by
  intro front u rest heq hu
  obtain ⟨more, rfl, hmore⟩ | ⟨more, hts, hmore⟩ := append_eq_append_iff.1 heq
  · exact absurd hu (hus u (hmore ▸ mem_append_right _ (mem_cons_self ..)))
  · cases more with
    | nil =>
      rw [nil_append] at hmore
      exact absurd hu (hus u (hmore ▸ mem_cons_self ..))
    | cons v more =>
      obtain ⟨rfl, -⟩ := List.cons.inj hmore
      exact h front u more hts hu

/-- A token that opens a block, behind tokens that leave no bracket open. -/
theorem Flat.concat (h : Flat ts) (hlevel : levelAfter 0 ts = 0) : Flat (ts ++ [t]) := by
  intro front u rest heq hu
  obtain ⟨more, rfl, hmore⟩ | ⟨more, hts, hmore⟩ := append_eq_append_iff.1 heq
  · -- the token is the last one
    obtain rfl : more = [] := by
      cases more with
      | nil => rfl
      | cons v more => simp at hmore
    simpa using hlevel
  · cases more with
    | nil =>
      rw [List.append_nil] at hts
      exact hts ▸ hlevel
    | cons v more =>
      obtain ⟨rfl, -⟩ := List.cons.inj hmore
      exact h front u more hts hu

end Token

namespace Layout

/-- The tokens made so far open their blocks at bracket level zero. -/
def Flat (s : Layout) : Prop := Token.Flat s.tokens.toList

variable {s s' : Layout}

namespace Flat

theorem push (h : s.Flat) {t : Token} (ht : s'.tokens = s.tokens.push t) (hk : t.kind ≠ .indent) :
    s'.Flat := by
  rw [Flat, ht, Array.toList_push]
  exact Token.Flat.append h (forall_mem_singleton.2 hk)

theorem skip (h : s.Flat) (text : List Char) : (s.skip text).Flat := h

theorem endLine (h : s.Flat) (stop : Nat) : (s.endLine stop).Flat := by
  unfold Layout.endLine
  split
  · exact h
  · split
    · exact h
    · exact h.push rfl nofun

/-- An indentation counts only where no bracket is open. -/
theorem indentTo (h : s.Flat) (hb : s.Balanced) (hn : s.nesting = 0) (width : Nat) :
    (s.indentTo width).1.Flat := by
  unfold Layout.indentTo
  split
  · change Token.Flat (s.tokens.push _).toList
    rw [Array.toList_push]
    exact Token.Flat.concat h (hb.nesting.trans hn)
  · rw [closeTo_eq, Flat]
    dsimp only
    rw [Array.toList_appendList]
    refine Token.Flat.append h fun u hu => ?_
    rw [eq_of_mem_replicate hu]
    exact nofun

theorem openLine (h : s.Flat) (hb : s.Balanced) (hn : s.nesting = 0) (width : Nat)
    (next : Option Piece) : (s.openLine width next).1.Flat := by
  unfold Layout.openLine
  split
  · exact h.indentTo hb hn width
  · exact h

/-- **Every step opens blocks at bracket level zero only.** -/
theorem step (h : s.Flat) (hb : s.Balanced) {p : Piece} (hp : p.IsText) (next : Option Piece) :
    (s.step p next).1.Flat := by
  unfold Layout.step
  split
  iterate 3 exact h
  · split
    · exact h
    · next hn =>
      have hend : ((s.endLine (s.place.offset + 1)).skip p.text).nesting = 0 :=
        (endLine_frame ..).2.trans (by omega)
      exact ((h.endLine _).skip p.text).openLine ((hb.endLine _).skip p.text) hend _ next
  · next kind lexeme hf =>
    refine h.push rfl ?_
    rintro rfl
    cases hp _ lexeme hf
  · exact h

theorem finish (h : s.Flat) : s.finish.Flat := by
  rw [Flat, toList_finish]
  refine Token.Flat.append (Token.Flat.append (h.endLine _) fun u hu => ?_)
    (forall_mem_singleton.2 nofun)
  rw [eq_of_mem_replicate hu]
  exact nofun

theorem run {limit : Nat} : {ps : List Piece} →
    (∀ p ∈ ps, p.IsText) → {s : Layout} →
    s.Balanced → s.Flat → (s.run limit ps).1.Flat
  | [], _, _, _, h => h.finish
  | p :: ps, hk, s, hb, h => by
    obtain ⟨hk, hks⟩ := forall_mem_cons.1 hk
    have hbalanced := hb.step hk ps.head?
    have hflat := h.step hb hk ps.head?
    unfold Layout.run
    split
    · next heq =>
      rw [heq] at hflat
      exact hflat
    · next heq =>
      rw [heq] at hflat hbalanced
      split
      · exact hflat
      · exact run hks hbalanced hflat

end Flat

end Layout

/-- **The tokens of a source open blocks outside of brackets only.** -/
theorem Token.flat_lex (limit : Nat) (source : List Char) :
    Token.Flat (Token.lex limit source).tokens := by
  have hk (p) (hp : p ∈ Piece.split (Source.normalize source)) : p.IsText :=
    Piece.isText_of_mem_split hp
  change (Layout.runAll limit (Piece.split (Source.normalize source))).1.Flat
  generalize Piece.split (Source.normalize source) = ps at hk
  have hstart : Layout.Flat {} := Token.flat_nil
  unfold Layout.runAll
  split
  · exact hstart.run hk .initial
  · next p ps =>
    split
    · have hb := (Layout.Balanced.initial.skip p.text).openLine (Layout.width p.text) ps.head?
      have hopen := (hstart.skip p.text).openLine (Layout.Balanced.initial.skip p.text) rfl
        (Layout.width p.text) ps.head?
      split
      · next heq =>
        rw [heq] at hopen
        exact hopen
      · next heq =>
        rw [heq] at hopen hb
        exact hopen.run (forall_mem_cons.1 hk).2 hb
    · exact hstart.run hk .initial

end Pine
