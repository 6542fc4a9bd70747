import Pine.Proofs.Token.Join
import Pine.Proofs.Token.Lexeme

/-!
# Cutting in front of a blank

Where a text is cut between two pieces, a blank can be put in. What the piece in front of it is
does not depend on what follows: a word, a number, a color or an operator that ended there ends in
front of a blank too, and comments in marks and strings end by themselves. Only blanks, line
breaks with their indentation and comments up to the end of the line go on with the blank.
-/

namespace Pine.Piece

open List

variable {c : Char} {cs vs ws xs : List Char}

/-! ### Runs and numbers -/

/-- A run ends within a text, or it takes all of it and goes on behind it. -/
theorem run_append_eq (p : Char → Bool) (cs ds : List Char) :
    run p (cs ++ ds) = if run p cs = cs.length then cs.length + run p ds else run p cs := by
  unfold run
  rw [takeWhile_append]
  split <;> simp

/-- A run that ends within a text ends there whatever follows the text. -/
theorem run_congr {p : Char → Bool} (cs : List Char) (h : run p (cs ++ vs) < cs.length) :
    run p (cs ++ ws) = run p (cs ++ vs) := by
  rw [run_append_eq] at h
  split at h
  · omega
  · next hne => rw [run_append_eq, run_append_eq, if_neg hne, if_neg hne]

/-- A run that ends with a text or before is a run of the text alone. -/
theorem run_of_le {p : Char → Bool} (cs : List Char) (h : run p (cs ++ vs) ≤ cs.length) :
    run p (cs ++ vs) = run p cs := by
  rw [run_append_eq] at h ⊢
  split at h
  · next heq =>
    rw [if_pos heq]
    omega
  · next hne => rw [if_neg hne]

theorem avoids_blank {p : Char → Bool} (hp : p ' ' = false) (xs : List Char) :
    Avoids p (' ' :: xs) := by
  intro d hd
  obtain rfl : ' ' = d := Option.some.inj hd
  exact hp

theorem run_blank {p : Char → Bool} (hp : p ' ' = false) (h : run p (cs ++ vs) ≤ cs.length)
    (xs : List Char) : run p (cs ++ ' ' :: xs) = run p (cs ++ vs) := by
  rw [run_append_of_avoids (avoids_blank hp xs), run_of_le cs h]

theorem fractionLength_of_le (h : fractionLength (cs ++ vs) ≤ cs.length) :
    fractionLength (cs ++ vs) = fractionLength cs := by
  cases cs with
  | nil => exact Nat.le_zero.1 h
  | cons c cs =>
    by_cases hc : c = '.'
    · subst hc
      rw [cons_append, fractionLength, length_cons] at h
      rw [cons_append, fractionLength, fractionLength, run_of_le cs (by omega)]
    · rw [cons_append, fractionLength_eq_zero hc, fractionLength_eq_zero hc]

theorem run_pos {p : Char → Bool} (h : cs.head?.any p = true) : 0 < run p cs := by
  cases cs with
  | nil => cases h
  | cons c cs =>
    have hc : p c = true := h
    simp [run, hc]

theorem exponentLength_of_le (h : exponentLength (cs ++ vs) ≤ cs.length) :
    exponentLength (cs ++ vs) = exponentLength cs := by
  match cs with
  | [] => exact Nat.le_zero.1 h
  | [e] =>
    -- an exponent has at least two characters
    rw [singleton_append] at h ⊢
    revert h
    fun_cases exponentLength (e :: vs) with
    | case1 e he d ds hd =>
      have hpos : 0 < run isDigit (d :: ds) := run_pos hd
      intro h
      rw [length_singleton] at h
      omega
    | case2 e he d ds hd hs =>
      intro h
      rw [length_singleton] at h
      omega
    | _ => intro; simp [exponentLength]
  | [e, d] =>
    have hrun : run isDigit (d :: vs) ≤ 1 → run isDigit (d :: vs) = run isDigit [d] := run_of_le [d]
    have hpos : vs.head?.any isDigit = true → 0 < run isDigit vs := run_pos
    simp only [cons_append, nil_append, exponentLength, length_cons, length_nil]
      at h ⊢
    grind
  | e :: d :: x :: cs =>
    have r₂ : run isDigit (d :: x :: cs ++ vs) ≤ _ → _ := run_of_le (d :: x :: cs)
    have r₃ : run isDigit (x :: cs ++ vs) ≤ _ → _ := run_of_le (x :: cs)
    simp only [cons_append, exponentLength, length_cons, head?_cons] at h r₂ r₃ ⊢
    grind

/-- A number that ended in front of other text ends in front of a blank. -/
theorem numberLength_blank (h : numberLength (cs ++ vs) ≤ cs.length) (xs : List Char) :
    numberLength (cs ++ ' ' :: xs) = numberLength (cs ++ vs) := by
  rw [numberLength_append_of_avoids (avoids_blank (by decide) xs)]
  unfold numberLength at h ⊢
  dsimp only at h ⊢
  have hwhole := run_le isDigit cs
  have hrun : run isDigit (cs ++ vs) = run isDigit cs := run_of_le cs (by omega)
  rw [hrun, drop_append_of_le_length hwhole] at h ⊢
  generalize run isDigit cs = whole at *
  have hfraction : fractionLength (cs.drop whole ++ vs) ≤ (cs.drop whole).length := by
    rw [length_drop]
    omega
  rw [fractionLength_of_le hfraction] at h ⊢
  rw [drop_append_of_le_length (by omega)] at h ⊢
  generalize whole + fractionLength (cs.drop whole) = width at *
  have hexponent : exponentLength (cs.drop width ++ vs) ≤ (cs.drop width).length := by
    rw [length_drop]
    omega
  rw [exponentLength_of_le hexponent]

/-- A number that starts with a point has a digit behind it. -/
theorem lt_numberLength_of_dot (h : cs.head?.any isDigit = true) :
    1 < numberLength ('.' :: cs) := by
  have hrun := run_pos h
  have hwhole : run isDigit ('.' :: cs) = 0 := by simp [run, show isDigit '.' = false by decide]
  unfold numberLength
  rw [hwhole]
  dsimp only
  rw [drop_zero, fractionLength]
  omega

theorem startsNumber_blank (h : startsNumber c (cs ++ vs) = true →
    numberLength (c :: cs ++ vs) ≤ (c :: cs).length) (xs : List Char) :
    startsNumber c (cs ++ ' ' :: xs) = startsNumber c (cs ++ vs) := by
  cases cs with
  | cons d cs => rfl
  | nil =>
    unfold startsNumber at h ⊢
    by_cases hdot : c = '.' ∧ vs.head?.any isDigit = true
    · obtain ⟨rfl, hv⟩ := hdot
      have hlt := lt_numberLength_of_dot hv
      have hle : numberLength ('.' :: vs) ≤ 1 := h (by simp [hv])
      omega
    · simp [show isDigit ' ' = false by decide, hdot]

/-! ### Operators -/

/-- An operator that ended in front of other text ends in front of a blank. -/
theorem operator?_blank (h : ∀ op ∈ operator? (c :: (cs ++ vs)), op.length ≤ cs.length + 1)
    (xs : List Char) : operator? (c :: (cs ++ ' ' :: xs)) = operator? (c :: (cs ++ vs)) := by
  cases cs with
  | cons d cs => exact (operator?_cons_cons ..).trans (operator?_cons_cons ..).symm
  | nil =>
    have hshape : ∀ op ∈ operators, op.toList ≠ [] ∧ ' ' ∉ op.toList := by decide
    rw [nil_append, nil_append] at *
    cases ho : operator? (c :: vs) with
    | some op =>
      have hop := mem_of_find?_eq_some ho
      have hfits := find?_some ho
      have hfits : op.toList <+: c :: vs := isPrefixOf_iff_prefix.1 hfits
      have hone : op.toList = [c] := by
        have hle := h op ho
        rw [length_nil, Nat.zero_add, ← String.length_toList] at hle
        obtain ⟨d, ds, hds⟩ := exists_cons_of_ne_nil (hshape op hop).1
        rw [hds] at hle hfits ⊢
        obtain rfl : ds = [] := eq_nil_of_length_eq_zero (by simpa using hle)
        rw [(cons_prefix_cons.1 hfits).1]
      have hends : operator? (op.toList ++ ' ' :: xs) = some op :=
        operator?_append_of_ends hop (by simp [endsOperator])
      rwa [hone] at hends
    | none =>
      refine find?_eq_none.2 fun op hop hp => ?_
      have hfits := isPrefixOf_iff_prefix.1 hp
      refine find?_eq_none.1 ho op hop (List.isPrefixOf_iff_prefix.2 ?_)
      obtain ⟨hne, hblank⟩ := hshape op hop
      obtain ⟨d, ds, hds⟩ := exists_cons_of_ne_nil hne
      rw [hds] at hfits hblank ⊢
      obtain ⟨rfl, hrest⟩ := cons_prefix_cons.1 hfits
      cases ds with
      | nil => exact cons_prefix_cons.2 ⟨rfl, nil_prefix⟩
      | cons e ds =>
        obtain ⟨rfl, -⟩ := cons_prefix_cons.1 hrest
        simp at hblank

/-! ### Pieces -/

/-- The characters that a piece of the form takes as long as they come. -/
def Form.takes : Form → Char → Bool
  | .blank | .lineBreak => Source.isBlank
  | .lineComment => (· ≠ '\n')
  | _ => fun _ => false

/-- The forms that go on with a blank. -/
def Form.goesOn (form : Form) : Bool := form.takes ' '

/-- A piece ends with its text. -/
theorem classify_le (c : Char) (cs : List Char) : (classify c cs).2 ≤ cs.length := by
  unfold classify
  split
  · exact run_le ..
  split
  · exact run_le ..
  split
  · exact run_le ..
  split
  · next hs =>
    obtain ⟨cs, rfl⟩ : ∃ ds, cs = '*' :: ds := by
      rw [Bool.and_eq_true, decide_eq_true_iff, decide_eq_true_iff] at hs
      exact head?_eq_some_iff.1 hs.2
    split
    · next n hr =>
      have := (commentRest_bounds hr).2.1
      rw [length_cons]
      exact Nat.succ_le_succ this
    · exact Nat.le_refl _
  split
  · exact run_le ..
  split
  · have := numberLength_le (c :: cs)
    rw [length_cons] at this
    exact Nat.sub_le_of_le_add this
  split
  · split
    · next hr => exact (stringRest_bounds hr).2.1
    · exact Nat.le_refl _
  split
  · split
    · exact Nat.le_refl _
    · exact run_le ..
  split
  · next op ho =>
    have hfits := find?_some ho
    have hfits : op.toList <+: c :: cs := isPrefixOf_iff_prefix.1 hfits
    have := hfits.length_le
    rw [String.length_toList, length_cons] at this
    exact Nat.sub_le_of_le_add this
  · split
    · exact Nat.zero_le _
    · exact Nat.le_refl _

/-- **A piece that ended in front of other text ends in front of a blank**, if it ends before the
blank or does not go on with it. -/
theorem classify_blank {form : Form} {more : Nat} (h : classify c (cs ++ vs) = (form, more))
    (hle : more ≤ cs.length) (hf : ∀ f, form ≠ .fault f)
    (hend : more < cs.length ∨ form.goesOn = false) (xs : List Char) :
    classify c (cs ++ ' ' :: xs) = (form, more) := by
  -- a piece that takes the next character has it in front of the blank
  have hhead (hmore : 0 < more) : (cs ++ ' ' :: xs).head? = (cs ++ vs).head? := by
    cases cs with
    | nil => exact absurd hle (Nat.not_le.2 hmore)
    | cons d cs => rfl
  have hslash {d : Char} (hd : d ≠ ' ') (h : ¬(c = '/' && (cs ++ vs).head? = some d) = true) :
      ¬(c = '/' && (cs ++ ' ' :: xs).head? = some d) = true := by
    cases cs with
    | nil => simp [Ne.symm hd]
    | cons e cs => exact h
  unfold classify at h ⊢
  split at h
  · next hc =>
    cases h
    rw [if_pos hc, run_congr cs (hend.resolve_right (by decide))]
  next hc =>
  rw [if_neg hc]
  split at h
  · next hb =>
    cases h
    rw [if_pos hb, run_congr cs (hend.resolve_right (by decide))]
  next hb =>
  rw [if_neg hb]
  split at h
  · next hl =>
    cases h
    have hlt := hend.resolve_right (by decide)
    have hsame : (cs ++ ' ' :: xs).head? = (cs ++ vs).head? := by
      cases cs with
      | nil => exact absurd hlt (Nat.not_lt_zero _)
      | cons d cs => rfl
    rw [if_pos (by rwa [hsame]), run_congr cs hlt]
  next hl =>
  rw [if_neg (hslash (by decide) hl)]
  split at h
  · next hl =>
    split at h
    · next n hr =>
      cases h
      rw [if_pos (by rwa [hhead (Nat.succ_pos _)])]
      obtain ⟨d, cs, rfl⟩ := exists_cons_of_ne_nil (ne_nil_of_length_pos
        (Nat.lt_of_lt_of_le (Nat.succ_pos _) hle))
      rw [cons_append, drop_one, tail_cons] at hr ⊢
      rw [commentRest_congr cs hr (by rw [length_cons] at hle; omega)]
    · cases h
      exact absurd rfl (hf _)
  next hl =>
  rw [if_neg (hslash (by decide) hl)]
  split at h
  · next hw =>
    rw [if_pos hw]
    have hmore : run isWordPart (cs ++ vs) = more := congrArg Prod.snd h
    dsimp only at h ⊢
    rw [hmore, take_append_of_le_length hle, plain_congr _ c hle] at h
    rw [run_blank (by decide) (by rwa [hmore]), hmore, take_append_of_le_length hle,
      plain_congr _ c hle, h]
  next hw =>
  rw [if_neg hw]
  change (if startsNumber c (cs ++ vs) = true then _ else _) = _ at h
  change (if startsNumber c (cs ++ ' ' :: xs) = true then _ else _) = _
  have hnumber (hs : startsNumber c (cs ++ vs) = true) :
      numberLength (c :: cs ++ vs) ≤ (c :: cs).length := by
    rw [if_pos hs] at h
    have hmore : numberLength (c :: cs ++ vs) - 1 = more := congrArg Prod.snd h
    rw [length_cons]
    omega
  rw [startsNumber_blank hnumber]
  split at h
  · next hs =>
    have hmore : numberLength (c :: cs ++ vs) - 1 = more := congrArg Prod.snd h
    rw [if_pos hs]
    rw [← cons_append, hmore, plain_congr _ c hle] at h
    rw [← cons_append, numberLength_blank (hnumber hs), hmore, plain_congr _ c hle, h]
  next hs =>
  rw [if_neg hs]
  split at h
  · next hq =>
    rw [if_pos hq]
    split at h
    · next value n hr =>
      cases h
      have hhex : hexValue? c = none := by
        rcases Bool.or_eq_true_iff.1 hq with hq | hq <;> rw [of_decide_eq_true hq] <;> rfl
      rw [stringRest_congr hhex cs hr hle]
    · cases h
      exact absurd rfl (hf _)
  next hq =>
  rw [if_neg hq]
  split at h
  · next hx =>
    rw [if_pos hx]
    split at h
    · cases h
      exact absurd rfl (hf _)
    · next n hn =>
      have hmore : run isHex (cs ++ vs) = more := congrArg Prod.snd h
      rw [hmore, plain_congr _ c hle] at h
      rw [run_blank (by decide) (by rwa [hmore]), hmore]
      split
      · exact absurd hmore hn
      · rw [plain_congr _ c hle, h]
  next hx =>
  rw [if_neg hx]
  have hoperator : operator? (c :: (cs ++ ' ' :: xs)) = operator? (c :: (cs ++ vs)) := by
    refine operator?_blank (fun op hop => ?_) xs
    rw [Option.mem_def.1 hop] at h
    have hmore : op.length - 1 = more := congrArg Prod.snd h
    omega
  rw [hoperator]
  split at h
  · exact h
  · split at h
    · next kind hk =>
      have hmore : 0 = more := congrArg Prod.snd h
      rw [plain_congr _ c (Nat.zero_le _)] at h ⊢
      exact h
    · cases h
      exact absurd rfl (hf _)

theorem run_append_of_eq_length {p : Char → Bool} (h : run p cs = cs.length) (ds : List Char) :
    run p (cs ++ ds) = cs.length + run p ds := by
  rw [run_append_eq, if_pos h]

/-- A piece that goes on takes all characters of its kind. -/
theorem run_of_goesOn {form : Form} {more : Nat} (h : classify c cs = (form, more))
    (hg : form.goesOn = true) : run form.takes cs = more := by
  have hboth : (classify c cs).1.goesOn = true →
      run (classify c cs).1.takes cs = (classify c cs).2 := by
    fun_cases classify c cs with
    | case1 | case2 | case3 => exact fun _ => rfl
    | _ => rintro ⟨⟩
  rw [h] at hboth
  exact hboth hg

theorem goesOn_cases (h : (classify c cs).1.goesOn = true) :
    c = '\n' ∨ Source.isBlank c = true ∨ (c = '/' && cs.head? = some '/') = true := by
  revert h
  fun_cases classify c cs with
  | case1 hc => exact fun _ => .inl hc
  | case2 hc hb => exact fun _ => .inr (.inl hb)
  | case3 hc hb hl => exact fun _ => .inr (.inr hl)
  | _ => rintro ⟨⟩

/-- A piece that goes on takes a blank and what it can of the rest. -/
theorem classify_goesOn {form : Form} (h : classify c (cs ++ vs) = (form, cs.length))
    (hg : form.goesOn = true) (xs : List Char) :
    classify c (cs ++ ' ' :: xs) = (form, cs.length + (1 + run form.takes xs)) := by
  have hrun := run_of_goesOn h hg
  have hblank : run form.takes (cs ++ ' ' :: xs) = cs.length + (1 + run form.takes xs) := by
    rw [run_append_of_eq_length ((run_of_le cs (Nat.le_of_eq hrun)).symm.trans hrun)]
    have hg : form.takes ' ' = true := hg
    simp [run, hg, Nat.add_comm]
  have hcases : c = '\n' ∨ Source.isBlank c = true ∨
      (c = '/' && (cs ++ vs).head? = some '/') = true := goesOn_cases (by rwa [h])
  rw [← hblank]
  by_cases hc : c = '\n'
  · rw [classify, if_pos hc] at h ⊢
    rw [← (Prod.mk.inj h).1]
    rfl
  by_cases hb : Source.isBlank c = true
  · rw [classify, if_neg hc, if_pos hb] at h ⊢
    rw [← (Prod.mk.inj h).1]
    rfl
  · have hl := (hcases.resolve_left hc).resolve_left hb
    rw [classify, if_neg hc, if_neg hb, if_pos hl] at h
    have hl' : (c = '/' && (cs ++ ' ' :: xs).head? = some '/') = true := by
      cases cs with
      | cons d cs => exact hl
      | nil =>
        rw [Bool.and_eq_true, decide_eq_true_iff, decide_eq_true_iff, nil_append] at hl
        have hpos : 0 < run (· ≠ '\n') vs := run_pos (by rw [hl.2]; decide)
        have hzero : run (· ≠ '\n') vs = 0 := (Prod.mk.inj h).2
        omega
    rw [classify, if_neg hc, if_neg hb, if_pos hl', ← (Prod.mk.inj h).1]
    rfl

/-! ### Texts -/

/-- What is left of the pieces of a text are the pieces of what is left of it. -/
theorem split_right : (qs : List Piece) → {cs : List Char} → {rs : List Piece} →
    split cs = qs ++ rs → split (rs.flatMap text) = rs
  | [], cs, rs, h => by
    rw [nil_append] at h
    rw [← h, flatMap_text_split]
  | q :: qs, cs, rs, h => by
    cases cs with
    | nil => simp [split] at h
    | cons c cs =>
      rw [split] at h
      exact split_right qs (List.cons.inj h).2

/-- The first piece of a text. -/
theorem classify_of_split {form : Form} {text : List Char} {qs : List Piece}
    (h : split (c :: (text ++ cs)) = ⟨form, c :: text⟩ :: qs) :
    classify c (text ++ cs) = (form, text.length) ∧ split cs = qs := by
  have hle := classify_le c (text ++ cs)
  cases hc : classify c (text ++ cs) with
  | mk form' more =>
    rw [hc] at hle
    rw [split, hc] at h
    obtain ⟨hp, hqs⟩ := List.cons.inj h
    obtain ⟨rfl, ht⟩ := Piece.mk.inj hp
    have htake := (List.cons.inj ht).2
    have hmore : more = text.length := by
      rw [← htake, length_take, Nat.min_eq_left hle]
    subst hmore
    rw [drop_left] at hqs
    exact ⟨rfl, hqs⟩

/-- **A text is cut in the same way in front of a blank**: the pieces that end before the blank are
the same, and so is one that ends there and does not go on. -/
theorem split_blank (xs : List Char) : (qs : List Piece) →
    split (qs.flatMap text ++ (ws ++ vs)) = qs ++ split (ws ++ vs) →
    (∀ q ∈ qs, ∀ f, q.form ≠ .fault f) → ws ≠ [] ∨ (∀ q ∈ qs.getLast?, q.form.goesOn = false) →
    split (qs.flatMap text ++ (ws ++ ' ' :: xs)) = qs ++ split (ws ++ ' ' :: xs)
  | [], _, _, _ => rfl
  | ⟨form, text⟩ :: qs, h, hf, hend => by
    obtain ⟨c, text, rfl⟩ := exists_cons_of_ne_nil (text_ne_nil h)
    rw [flatMap_cons, cons_append, cons_append, append_assoc] at h ⊢
    obtain ⟨hc, hqs⟩ := classify_of_split h
    have hlast : text.length < (text ++ (qs.flatMap Piece.text ++ ws)).length ∨
        form.goesOn = false := by
      cases qs with
      | nil =>
        refine hend.imp (fun hw => ?_) fun hg => hg _ rfl
        have := length_pos_iff.2 hw
        simpa using this
      | cons q qs =>
        have := length_pos_iff.2 (text_ne_nil hqs)
        simp only [flatMap_cons, length_append]
        omega
    have hc : classify c (text ++ (qs.flatMap Piece.text ++ ws) ++ vs) = (form, text.length) := by
      rw [← hc, append_assoc, append_assoc]
    have hblank := classify_blank hc (by simp) (hf _ (mem_cons_self ..)) hlast xs
    rw [append_assoc, append_assoc] at hblank
    have hrest := split_blank xs qs hqs (fun q hq => hf q (mem_cons_of_mem _ hq)) (by
      refine hend.imp_right fun hg q hq => hg q ?_
      rw [getLast?_cons, Option.mem_def.1 hq]
      rfl)
    rw [split, hblank]
    dsimp only
    rw [take_left, drop_left, hrest, cons_append]

/-- A piece that goes on ends in front of a character that it does not take. -/
theorem avoids_of_split {form : Form} {text : List Char} {rs : List Piece}
    (h : split (text ++ vs) = ⟨form, text⟩ :: rs) (hg : form.goesOn = true) :
    Avoids form.takes vs := by
  obtain ⟨c, text, rfl⟩ := exists_cons_of_ne_nil (text_ne_nil h)
  have hrun := run_of_goesOn (classify_of_split h).1 hg
  rw [run_append_of_eq_length ((run_of_le text (Nat.le_of_eq hrun)).symm.trans hrun)] at hrun
  intro d hd
  refine Bool.eq_false_iff.2 fun hp => ?_
  have : 0 < run form.takes vs := run_pos (by rw [Option.mem_def.1 hd]; exact hp)
  omega

/-- A last piece that goes on takes the blank and what it can of the rest. -/
theorem split_goesOn {form : Form} {text : List Char} {rs : List Piece}
    (h : split (text ++ vs) = ⟨form, text⟩ :: rs) (hg : form.goesOn = true) (xs : List Char) :
    split (text ++ ' ' :: xs) = ⟨form, text ++ ' ' :: xs.take (run form.takes xs)⟩ ::
      split (xs.drop (run form.takes xs)) := by
  obtain ⟨c, text, rfl⟩ := exists_cons_of_ne_nil (text_ne_nil h)
  have hc := classify_goesOn (classify_of_split h).1 hg xs
  rw [cons_append, split, hc]
  dsimp only
  rw [take_length_add_append, drop_length_add_append, Nat.add_comm 1, take_succ_cons,
    drop_succ_cons, cons_append]

end Pine.Piece
