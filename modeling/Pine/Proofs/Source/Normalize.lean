import Pine.Token.Layout

/-!
# Normal sources

A normal source has no carriage return and does not start with a byte-order mark. Normalizing
removes every carriage return, but only one of several marks; what is left of the others is no
token, so a source with tokens has been normalized for good.
-/

namespace Pine

namespace Source

theorem unifyLineEnds_eq_self {cs : List Char} (h : '\r' ∉ cs) : unifyLineEnds cs = cs := by
  fun_induction unifyLineEnds cs with
  | case1 cs ih => simp at h
  | case2 cs _ ih => simp at h
  | case3 c cs _ _ ih => rw [ih (fun hc => h (List.mem_cons_of_mem c hc))]
  | case4 => rfl

theorem cr_notMem_unifyLineEnds (cs : List Char) : '\r' ∉ unifyLineEnds cs := by
  fun_induction unifyLineEnds cs with
  | case1 cs ih => simpa using ih
  | case2 cs _ ih => simpa using ih
  | case3 c cs _ hc ih =>
    rw [List.mem_cons, not_or]
    exact ⟨fun h => hc h.symm, ih⟩
  | case4 => simp

theorem dropMark_eq_self {cs : List Char} (h : cs.head? ≠ some mark) : dropMark cs = cs := by
  match cs with
  | [] => rfl
  | c :: cs => rw [dropMark, if_neg (by simpa using h)]

theorem normalize_eq_self {cs : List Char} (hm : cs.head? ≠ some mark) (hr : '\r' ∉ cs) :
    normalize cs = cs := by
  rw [normalize, dropMark_eq_self hm, unifyLineEnds_eq_self hr]

end Source

namespace Piece

/-- A character that no operator starts with starts no operator. -/
theorem operator?_eq_none {c : Char} (h : ∀ op ∈ operators, op.toList.head? ≠ some c)
    (cs : List Char) : operator? (c :: cs) = none := by
  rw [operator?, List.find?_eq_none]
  intro op hop
  have hne : op.toList ≠ [] := (by decide : ∀ op ∈ operators, op.toList ≠ []) op hop
  obtain ⟨d, ds, hs⟩ := List.exists_cons_of_ne_nil hne
  have hd : d ≠ c := by simpa [hs] using h op hop
  simp [hs, List.isPrefixOf, hd]

theorem classify_mark (cs : List Char) :
    classify Source.mark cs = (.fault (.stray Source.mark), cs.length) := by
  have hop : operator? (Source.mark :: cs) = none := operator?_eq_none (by decide) cs
  have hslash : Source.mark ≠ '/' := by decide
  have hdot : Source.mark ≠ '.' := by decide
  have hdigit : isDigit Source.mark = false := by decide
  unfold classify
  rw [if_neg (by decide), if_neg (by decide), if_neg (by simp [hslash]), if_neg (by simp [hslash]),
    if_neg (by decide), if_neg (by simp [hdigit, hdot]), if_neg (by decide), if_neg (by decide), hop]
  rfl

end Piece

/-- A byte-order mark that is left in front of a source is an error. -/
theorem Token.error_lex_of_mark {limit : Nat} {source : List Char}
    (h : (Source.normalize source).head? = some Source.mark) :
    (Token.lex limit source).error ≠ none := by
  obtain ⟨cs, hcs⟩ := List.head?_eq_some_iff.1 h
  unfold Token.lex
  rw [hcs, Piece.split, Piece.classify_mark]
  simp [Layout.runAll, Layout.run, Layout.step]

/-- **A source with tokens has the same tokens after normalizing it once more.** -/
theorem Token.lex_normalize {limit : Nat} {source : List Char}
    (h : (Token.lex limit source).error = none) :
    Token.lex limit (Source.normalize source) = Token.lex limit source := by
  have hm : (Source.normalize source).head? ≠ some Source.mark :=
    fun hm => Token.error_lex_of_mark hm h
  rw [Token.lex, Token.lex, Source.normalize_eq_self hm (Source.cr_notMem_unifyLineEnds _)]

end Pine
