import Pine.Proofs.Token.Lexeme

/-!
# Text between tokens

Between tokens stand spaces, tabs, newlines and comments. A comment to the end of a line is complete
if a newline or the end of the source follows it. A block comment is complete if the marks inside of
it match, where marks are read from left to right: in `/*/` the slash and the star open a comment
and the last slash closes nothing.
-/

namespace Pine

open List

namespace Source

/-- The text between the marks of a block comment: characters that start no mark, and comments. The
closing mark follows the text, so a slash does not come last. -/
inductive Nested : List Char → Prop where
  | nil : Nested []
  | char {c : Char} {cs : List Char} (hopen : ¬['/', '*'] <+: c :: (cs ++ ['*']))
      (hclose : ¬['*', '/'] <+: c :: cs) (hcs : Nested cs) : Nested (c :: cs)
  | comment {inner cs : List Char} (hinner : Nested inner) (hcs : Nested cs) :
      Nested ('/' :: '*' :: (inner ++ '*' :: '/' :: cs))

/-- Spaces, tabs, newlines and complete comments in front of the text `after`. -/
inductive Filler (after : List Char) : List Char → Prop where
  | nil : Filler after []
  | blank {c : Char} {cs : List Char} (hc : c = ' ' ∨ c = '\t' ∨ c = '\n')
      (hcs : Filler after cs) : Filler after (c :: cs)
  | lineComment {body cs : List Char} (hbody : '\n' ∉ body)
      (hend : ∀ c ∈ (cs ++ after).head?, c = '\n') (hcs : Filler after cs) :
      Filler after ('/' :: '/' :: (body ++ cs))
  | blockComment {body cs : List Char} (hbody : Nested body) (hcs : Filler after cs) :
      Filler after ('/' :: '*' :: (body ++ '*' :: '/' :: cs))

theorem Filler.blanks {after gap : List Char} (h : Filler after gap) {cs : List Char}
    (hcs : ∀ c ∈ cs, isBlank c = true) : Filler after (cs ++ gap) := by
  induction cs with
  | nil => exact h
  | cons c cs ih =>
    obtain ⟨hc, hcs⟩ := forall_mem_cons.1 hcs
    have hblank : c = ' ' ∨ c = '\t' := by simpa [isBlank] using hc
    exact .blank (hblank.imp_right .inl) (ih hcs)

/-- So many comments, the innermost first, end with the text. -/
def Closes : Nat → List Char → Prop
  | 0, cs => cs = []
  | k + 1, cs => ∃ body more, Nested body ∧ cs = body ++ '*' :: '/' :: more ∧ Closes k more

namespace Closes

variable {k : Nat} {cs : List Char} {c : Char}

theorem char (h : Closes (k + 1) cs) (hopen : ¬['/', '*'] <+: c :: cs)
    (hclose : ¬['*', '/'] <+: c :: cs) : Closes (k + 1) (c :: cs) := by
  obtain ⟨body, more, hbody, rfl, hmore⟩ := h
  refine ⟨c :: body, more, .char (fun hp => hopen (hp.trans ?_)) (fun hp => hclose (hp.trans ?_))
    hbody, rfl, hmore⟩
  · exact ⟨'/' :: more, by simp⟩
  · exact ⟨'*' :: '/' :: more, rfl⟩

theorem opened (h : Closes (k + 2) cs) : Closes (k + 1) ('/' :: '*' :: cs) := by
  obtain ⟨inner, _, hinner, rfl, body, more, hbody, rfl, hmore⟩ := h
  exact ⟨_, more, hinner.comment hbody, by simp, hmore⟩

theorem closed (h : Closes k cs) : Closes (k + 1) ('*' :: '/' :: cs) := ⟨[], cs, .nil, rfl, h⟩

end Closes

end Source

namespace Piece

open Source (Closes Filler)

/-- **The rest of a block comment** closes the comment and those open inside of it. -/
theorem closes_of_commentRest {nested n : Nat} {cs : List Char}
    (h : commentRest nested cs = some n) : Closes (nested + 1) (cs.take n) := by
  fun_induction commentRest nested cs generalizing n with
  | case1 nested cs ih =>
    obtain ⟨m, hm, rfl⟩ := Option.map_eq_some_iff.1 h
    exact (ih hm).opened
  | case2 cs =>
    cases h
    exact Closes.closed (k := 0) rfl
  | case3 cs k ih =>
    obtain ⟨m, hm, rfl⟩ := Option.map_eq_some_iff.1 h
    exact (ih hm).closed
  | case4 nested c cs hopen hclose ih =>
    obtain ⟨m, hm, rfl⟩ := Option.map_eq_some_iff.1 h
    -- a mark at the head of what was read is one at the head of the text
    have hhead {a b : Char} (hp : [a, b] <+: c :: cs.take m) : c = a ∧ ∃ ds, cs = b :: ds := by
      obtain ⟨ds, hds⟩ := hp.trans ((prefix_cons_inj c).2 (List.take_prefix m cs))
      obtain ⟨rfl, rfl⟩ := List.cons.inj hds
      exact ⟨rfl, ds, rfl⟩
    refine (ih hm).char (fun hp => ?_) fun hp => ?_
    · obtain ⟨rfl, ds, rfl⟩ := hhead hp
      exact hopen ds rfl rfl
    · obtain ⟨rfl, ds, rfl⟩ := hhead hp
      exact hclose ds rfl rfl
  | case5 => cases h

/-- Behind a run stands no character of its class. -/
theorem head?_drop_run {p : Char → Bool} {c : Char} {cs : List Char}
    (h : c ∈ (cs.drop (run p cs)).head?) : p c = false := by
  induction cs with
  | nil => cases h
  | cons d cs ih =>
    by_cases hd : p d = true
    · rw [run, takeWhile_cons_of_pos hd] at h
      exact ih h
    · rw [run, takeWhile_cons_of_neg hd] at h
      obtain rfl := Option.some.inj h
      exact Bool.not_eq_true _ ▸ hd

/-- **A piece that is neither a token nor at fault fills**, in front of text that fills. -/
theorem filler_of_classify {c : Char} {cs : List Char}
    (htoken : ∀ kind lexeme, (classify c cs).1 ≠ .token kind lexeme)
    (hfault : ∀ f, (classify c cs).1 ≠ .fault f) {gap after : List Char}
    (hrest : cs.drop (classify c cs).2 = gap ++ after) (hgap : Filler after gap) :
    Filler after (c :: (cs.take (classify c cs).2 ++ gap)) := by
  revert htoken hfault hrest
  fun_cases classify c cs with
  | case1 hc =>
    intro _ _ _
    exact .blank (.inr (.inr hc)) (hgap.blanks fun d hd => mem_take_run hd)
  | case2 _ hc =>
    intro _ _ _
    have hblank : ∀ d ∈ c :: cs.take (run Source.isBlank cs), Source.isBlank d = true :=
      forall_mem_cons.2 ⟨hc, fun d hd => mem_take_run hd⟩
    exact hgap.blanks hblank
  | case3 _ _ hc =>
    intro _ _ hrest
    obtain ⟨rfl, hhead⟩ : c = '/' ∧ cs.head? = some '/' := by simpa using hc
    obtain ⟨ds, rfl⟩ := head?_eq_some_iff.1 hhead
    have hrun : run (· ≠ '\n') ('/' :: ds) = run (· ≠ '\n') ds + 1 := by simp [run]
    rw [hrun] at hrest ⊢
    refine .lineComment (fun hmem => ?_) (fun d hd => ?_) hgap
    · simpa using mem_take_run hmem
    · rw [← hrest] at hd
      simpa using head?_drop_run hd
  | case4 _ _ _ hc n hn =>
    intro _ _ _
    obtain ⟨rfl, hhead⟩ : c = '/' ∧ cs.head? = some '*' := by simpa using hc
    obtain ⟨ds, rfl⟩ := head?_eq_some_iff.1 hhead
    obtain ⟨body, _, hbody, htake, rfl⟩ := closes_of_commentRest hn
    have hfills := Filler.blockComment hbody hgap
    rw [drop_one, tail_cons] at htake
    rw [take_succ_cons, htake]
    simpa using hfills
  | case5 | case9 | case10 | case14 => exact fun _ hfault => absurd rfl (hfault _)
  | case6 | case7 | case8 | case11 | case12 | case13 => exact fun htoken => absurd rfl (htoken _ _)

end Piece

end Pine
