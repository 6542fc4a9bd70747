import Pine.Proofs.Grammar.Sound
import Pine.Proofs.Grammar.TypeArgs

/-!
# Heads of declarations

The head of a declaration, typed or of a tuple, ends in a `=` and holds no parenthesis. The head of
a function ends in an arrow. So a line in which every `=` comes after a parenthesis and that has no
arrow starts with no head, and the cursor goes back from all of them.
-/

namespace Pine

open List

namespace Grammar

open Pine.Parser

/-! ### Stretches without parentheses -/

theorem typeWord_passing (fuel : Nat) : (typeWord fuel).Passing := by
  intro c
  refine (passing_expect (by simp) (by simp) c).bind fun t c₁ h₁ => ?_
  refine (dotted_passing fuel t.lexeme c₁).bind fun word c₂ h₂ => ensures_peek ?_
  extract_lets later
  have hlater (word : String) (c' : Cursor) (h : c.Passes c') :
      Ensures (later word) c' fun _ c'' => c.Passes c'' := by
    refine ensures_peek (ensures_peekNext ?_)
    split
    · next hk =>
      simp only [Bool.and_eq_true, decide_eq_true_eq] at hk
      obtain ⟨hopen, hclose⟩ := hk
      rw [← Cursor.peek_advance (by simp [hopen])] at hclose
      have hempty := (Cursor.passes_advance hopen (by simp) (by simp)).trans
        (Cursor.passes_advance hclose (by simp) (by simp))
      exact ensures_advance (ensures_advance (ensures_pure (h.trans hempty)))
    · exact ensures_pure h
  split
  · refine (typeArgs_passing fuel c₂).bind fun _ c₃ h₃ => ?_
    exact hlater _ c₃ (h₁.trans (h₂.trans h₃))
  · exact hlater _ c₂ (h₁.trans h₂)

theorem typeWords_passing (fuel n : Nat) : (typeWords fuel n).Passing := by
  induction n with
  | zero => exact fun _ => ensures_unexpected
  | succ n ih =>
    intro c
    refine (typeWord_passing fuel c).bind fun word c₁ h₁ => ensures_peek ?_
    split
    · refine (ih c₁).bind fun others c₂ h₂ => ?_
      exact ensures_pure (h₁.trans h₂)
    · exact ensures_pure h₁

theorem typedName_passing (fuel : Nat) : (typedName fuel).Passing := by
  intro c
  refine (typeWords_passing fuel fuel c).bind fun t c₁ h₁ => ?_
  split
  · exact ensures_peek (ensures_fail _ _)
  · exact ensures_pure h₁

theorem names_passing (n : Nat) : (names n).Passing := by
  induction n with
  | zero => exact fun _ => ensures_unexpected
  | succ n ih =>
    intro c
    refine (passing_expect (by simp) (by simp) c).bind fun t c₁ h₁ => ensures_peek ?_
    split
    · next hk =>
      refine ensures_advance ((ih _).bind fun _ c₂ h₂ => ?_)
      exact ensures_pure (h₁.trans ((Cursor.passes_advance hk (by simp) (by simp)).trans h₂))
    · exact ensures_pure h₁

/-! ### Where heads end -/

/-- The cursor moved over a stretch without parentheses and the `=` at its end. -/
def Binds (c c' : Cursor) : Prop := ∃ c₂, c.Passes c₂ ∧ c₂.peek.isOp "=" = true ∧ c' = c₂.advance

theorem declHead_ensures (fuel : Nat) (typed : Bool) (c : Cursor) :
    Ensures (declHead fuel typed) c fun _ c' => Binds c c' := by
  refine ensures_peek ((typedName_passing fuel c).bind fun t c₁ h₁ => ?_)
  split
  · exact ensures_fail _ _
  · refine (ensures_expectOp_advance "=" c₁).bind ?_
    rintro _ _ ⟨⟨rfl, ht⟩, rfl⟩
    exact ensures_pure ⟨c₁, h₁, ht, rfl⟩

theorem tupleHead_ensures (fuel : Nat) (c : Cursor) :
    Ensures (tupleHead fuel) c fun _ c' => Binds c c' := by
  refine (passing_expect (by simp) (by simp) c).bind fun _ c₁ h₁ => ?_
  refine (names_passing fuel c₁).bind fun _ c₂ h₂ => ?_
  refine (passing_expect (by simp) (by simp) c₂).bind fun _ c₃ h₃ => ?_
  refine (ensures_expectOp_advance "=" c₃).bind ?_
  rintro _ _ ⟨⟨rfl, ht⟩, rfl⟩
  exact ensures_pure ⟨c₃, h₁.trans (h₂.trans h₃), ht, rfl⟩

end Grammar

/-! ### Lines without heads -/

/-- A `=` comes after a parenthesis. -/
theorem Word.lparen_of_bindsLate {ws vs : List Word} (h : bindsLate (ws ++ op "=" :: vs) = true) :
    ∃ w ∈ ws, w.1 = .lparen := by
  induction ws with
  | nil => simp [bindsLate, op] at h
  | cons w ws ih =>
    rw [cons_append, bindsLate, Bool.or_eq_true, Bool.and_eq_true, decide_eq_true_iff] at h
    rcases h with h | ⟨-, h⟩
    · exact ⟨w, mem_cons_self .., h⟩
    · obtain ⟨v, hv, hk⟩ := ih h
      exact ⟨v, mem_cons_of_mem w hv, hk⟩

namespace Grammar

open Pine.Parser

variable {ts tail past : List Token} {nl : Token}

theorem not_binds (hn : nl.kind = .newline) (h : Word.bindsLate (ts.map Token.word) = true)
    (c' : Cursor) : ¬Binds ⟨past, ts ++ nl :: tail⟩ c' := by
  rintro ⟨c₂, ⟨used, hr, -, hk⟩, hop, -⟩
  have hkind : c₂.peek.kind = .operator := (Token.isOp_iff.1 hop).1
  have hsplit : ts ++ nl :: tail = used ++ [c₂.peek] ++ c₂.advance.rest := by
    rw [append_assoc, singleton_append, ← Cursor.rest_eq_cons (by simp [hkind])]
    exact hr
  -- the `=` stands in front of the line end
  obtain ⟨vs, rfl⟩ := prefix_of_append_cons hsplit fun hm => by
    rcases mem_append.1 hm with hm | hm
    · exact (hk nl hm).2 hn
    · rw [mem_singleton.1 hm, hkind] at hn
      cases hn
  rw [append_assoc, map_append, singleton_append, map_cons,
    Token.word_of_isOp hop] at h
  obtain ⟨w, hw, hlparen⟩ := Word.lparen_of_bindsLate h
  obtain ⟨t, ht, rfl⟩ := mem_map.1 hw
  exact (hk t ht).1 hlparen

/-- **A line in which every `=` comes after a parenthesis starts with no typed declaration.** -/
theorem attempt_declHead (hn : nl.kind = .newline)
    (h : Word.bindsLate (ts.map Token.word) = true) (fuel : Nat) (typed : Bool) :
    attempt (declHead fuel typed) ⟨past, ts ++ nl :: tail⟩ = .ok none ⟨past, ts ++ nl :: tail⟩ :=
  attempt_none fun head c' hok => not_binds hn h c' (declHead_ensures fuel typed _ head c' hok)

/-- **A line in which every `=` comes after a parenthesis starts with no tuple.** -/
theorem attempt_tupleHead (hn : nl.kind = .newline)
    (h : Word.bindsLate (ts.map Token.word) = true) (fuel : Nat) :
    attempt (tupleHead fuel) ⟨past, ts ++ nl :: tail⟩ = .ok none ⟨past, ts ++ nl :: tail⟩ :=
  attempt_none fun head c' hok => not_binds hn h c' (tupleHead_ensures fuel _ head c' hok)

/-- **Where no arrow follows there is no head of a function.** -/
theorem attempt_funcHead {r : Rules} (hr : r.Sound) (d : Nesting) {c : Cursor}
    (h : ∀ t ∈ c.rest, t.isOp "=>" = false) : attempt (r.funcHead d) c = .ok none c := by
  refine attempt_none fun head c' hok => ?_
  obtain ⟨⟨-, t, ht, hhead⟩, used, hrest, hpast, -, hne⟩ :=
    (Rules.funcHead_follows hr d c).ensures head c' hok
  have hmem : t ∈ used := by
    have hlast : used.reverse ≠ [] := by simpa using hne rfl
    rw [hpast, head?_append_of_ne_nil _ hlast, head?_reverse] at hhead
    exact mem_of_getLast? hhead
  have hfalse := h t (by rw [hrest]; exact mem_append_left _ hmem)
  rw [ht] at hfalse
  cases hfalse

end Grammar

end Pine
