import Pine.Proofs.Grammar.Sound
import Pine.Proofs.Token.Places
import Pine.Reading

/-!
# What anchors a tree

The suffixes of every chain that is read stand where the token stands that the chain starts with.
Tokens for text stand at different positions, so that chains do as well.
-/

namespace Pine.Program

variable {limits : Limits} {source : List Char} {program : Program}

/-- A program that is read is held by the tokens of its source. -/
theorem exists_spans_read (h : Source.read limits source = .ok program) :
    ∃ c', (Cursor.start (Token.lex limits.maxTokens source).tokens).Spans false c' []
      program.nodes := by
  unfold Source.read at h
  dsimp only at h
  split at h
  · cases h
  · split at h
    · next he =>
      cases h
      obtain ⟨c', hc, -⟩ := exists_spans_parse he
      exact ⟨c', hc⟩
    · cases h

/-- **The links of a program that is read are aligned.** -/
theorem aligned_read (h : Source.read limits source = .ok program) :
    Aligned (links program.nodes) := by
  obtain ⟨_, hc⟩ := exists_spans_read h
  exact hc.aligned

/-- **The chains of a program that is read stand at different positions.** -/
theorem nodup_anchors_read (h : Source.read limits source = .ok program) :
    (anchors (links program.nodes)).Nodup := by
  obtain ⟨_, hc⟩ := exists_spans_read h
  refine List.nodup_iff_count_le_one.2 fun x => ?_
  have hcount := hc.count_le x
  have hleft := Token.count_pos_lex limits.maxTokens source x
  rw [List.nil_append] at hcount
  exact (Nat.le_add_right _ _).trans (hcount.trans hleft)

end Pine.Program
