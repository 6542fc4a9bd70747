import Pine.Proofs.Script.Names
import Pine.Proofs.Token.Alike
import Pine.Proofs.Token.Lexeme

/-!
# Spelling of tokens

The identifiers and keywords among the tokens of a source are words, so they have the shape of the
names of scripts and no `$` in them.
-/

namespace Pine

open List

/-- A token that is a name, or a keyword, has the shape of a name. -/
def Token.Spelled (t : Token) : Prop :=
  t.kind = .identifier ∨ t.kind = .keyword → Script.isNameShaped t.lexeme = true

namespace Piece

theorem IsWord.isNameShaped {s : String} (h : IsWord s) : Script.isNameShaped s = true := by
  obtain ⟨c, cs, hs, hc, hcs⟩ := h
  rw [Script.isNameShaped, hs]
  simpa using ⟨hc, hcs⟩

/-- A piece that is cut off as a name or keyword is a word. -/
theorem isWord_of_classify {c : Char} {cs : List Char} {kind : Token.Kind} {lexeme : String}
    (h : (classify c cs).1 = .token kind lexeme) (hk : kind = .identifier ∨ kind = .keyword) :
    IsWord lexeme := by
  revert h
  fun_cases classify c cs with
  | case6 _ _ _ _ hword =>
    rintro ⟨⟩
    exact ⟨c, _, String.toList_ofList, hword, fun d hd => mem_take_run hd⟩
  | case13 _ _ _ _ _ _ _ _ _ _ hmark =>
    rintro ⟨⟩
    exact absurd (mem_symbolKinds hmark) (by rcases hk with rfl | rfl <;> decide)
  | case7 | case8 | case11 | case12 =>
    rintro ⟨⟩
    exact absurd hk (by decide)
  | _ => rintro ⟨⟩

theorem isWord_of_mem_split {cs : List Char} {p : Piece} (hp : p ∈ split cs)
    {kind : Token.Kind} {lexeme : String} (h : p.form = .token kind lexeme)
    (hk : kind = .identifier ∨ kind = .keyword) : IsWord lexeme := by
  fun_induction split cs with
  | case1 => cases hp
  | case2 c cs form more hm ih =>
    rcases mem_cons.1 hp with rfl | hp
    · exact isWord_of_classify (by rw [hm]; exact h) hk
    · exact ih hp

end Piece

namespace Layout

/-- All tokens so far are well-spelled. -/
def Spelled (s : Layout) : Prop := ∀ t ∈ s.tokens.toList, t.Spelled

/-- Line structure has no spelling. -/
theorem AddsLines.spelled {s s' : Layout} (h : s.AddsLines s') (hs : s.Spelled) : s'.Spelled := by
  obtain ⟨ts, ht, hk⟩ := h
  intro t hmem hkind
  rw [ht] at hmem
  rcases mem_append.1 hmem with hmem | hmem
  · exact hs t hmem hkind
  · have htext := hk t hmem
    rcases hkind with hkind | hkind <;>
      simp [Token.Kind.isText, hkind, Token.Kind.isLayout] at htext

theorem Spelled.step {s : Layout} (hs : s.Spelled) {p : Piece}
    (hp : ∀ t : Token, p.form = .token t.kind t.lexeme → t.Spelled) (next : Option Piece) :
    (s.step p next).1.Spelled := by
  rcases tokens_step s p next with h | ⟨t, ht, hform, -⟩
  · exact h.spelled hs
  · intro u hu
    rw [ht, Array.toList_push] at hu
    rcases mem_append.1 hu with hu | hu
    · exact hs u hu
    · rw [mem_singleton.1 hu]
      exact hp t hform

theorem Spelled.run {limit : Nat} : {ps : List Piece} →
    (∀ p ∈ ps, ∀ t : Token, p.form = .token t.kind t.lexeme → t.Spelled) → {s : Layout} →
    s.Spelled → (s.run limit ps).1.Spelled
  | [], _, s, hs => (AddsLines.finish s).spelled hs
  | p :: ps, hp, s, hs => by
    obtain ⟨hp, hps⟩ := forall_mem_cons.1 hp
    have hstep := hs.step hp ps.head?
    unfold Layout.run
    split
    · next heq =>
      rw [heq] at hstep
      exact hstep
    · next heq =>
      rw [heq] at hstep
      split
      · exact hstep
      · exact Spelled.run hps hstep

end Layout

/-- **The names and keywords of a source are identifiers**, also in front of an error. -/
theorem Token.spelled_lex (limit : Nat) (source : List Char) :
    ∀ t ∈ (Token.lex limit source).tokens, t.Spelled := by
  have hp : ∀ p ∈ Piece.split (Source.normalize source), ∀ t : Token,
      p.form = .token t.kind t.lexeme → t.Spelled :=
    fun p hp t ht hk => (Piece.isWord_of_mem_split hp ht hk).isNameShaped
  have hstart : Layout.Spelled {} := by
    intro t ht
    cases ht
  change Layout.Spelled (Layout.runAll limit (Piece.split (Source.normalize source))).1
  generalize Piece.split (Source.normalize source) = ps at hp
  unfold Layout.runAll
  split
  · exact hstart.run hp
  · next p ps =>
    split
    · have hopen := (Layout.AddsLines.openLine (Layout.skip {} p.text) (Layout.width p.text)
        ps.head?).spelled (show Layout.Spelled (Layout.skip {} p.text) from hstart)
      split
      · next heq =>
        rw [heq] at hopen
        exact hopen
      · next heq =>
        rw [heq] at hopen
        exact Layout.Spelled.run (forall_mem_cons.1 hp).2 hopen
    · exact hstart.run hp

end Pine
