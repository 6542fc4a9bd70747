import Pine.Token.Piece

/-!
# Cutting at a line end

A text that ends with a newline can be cut into pieces without looking at what follows it: no
piece but a comment or a string crosses a line end, and a comment or a string that does is closed
before the end of a text without faults. So the pieces of two texts in a row are the pieces of the
first one followed by those of the second one, if the second does not start with a blank, which
would be indentation.

A comment or a string that ends within a text ends there whatever follows the text. That it ends
with its own mark, and not with the newline, gives the rest.
-/

namespace Pine.Piece

open List

/-! ### Ends of lines -/

/-- The text ends with a newline. -/
def EndsLine (cs : List Char) : Prop := cs.getLast? = some '\n'

namespace EndsLine

variable {c : Char} {cs : List Char}

theorem ne_nil (h : EndsLine cs) : cs ≠ [] := by
  rintro rfl
  cases h

theorem exists_eq (h : EndsLine cs) : ∃ xs, cs = xs ++ ['\n'] := getLast?_eq_some_iff.1 h

@[simp]
theorem cons_cons_iff {d : Char} : EndsLine (c :: d :: cs) ↔ EndsLine (d :: cs) := by
  unfold EndsLine
  rw [getLast?_cons_cons]

theorem tail (h : EndsLine (c :: cs)) (hc : c ≠ '\n') : EndsLine cs := by
  cases cs with
  | nil => simp [EndsLine, hc] at h
  | cons d ds => exact cons_cons_iff.1 h

theorem drop (h : EndsLine cs) {n : Nat} (hn : n < cs.length) : EndsLine (cs.drop n) := by
  unfold EndsLine at *
  rw [getLast?_drop, if_neg (by omega), h]

theorem lt_length (h : EndsLine cs) {n : Nat} (hn : n ≤ cs.length) {d : Char}
    (hd : (cs.take n).getLast? = some d) (hne : d ≠ '\n') : n < cs.length := by
  refine Nat.lt_of_le_of_ne hn fun heq => hne ?_
  rw [heq, take_length, h] at hd
  exact (Option.some.inj hd).symm

end EndsLine

/-! ### Runs -/

/-- The text does not start with a character of the class. -/
def Avoids (p : Char → Bool) (ds : List Char) : Prop := ∀ d ∈ ds.head?, p d = false

variable {cs ds vs ws : List Char} {p : Char → Bool}

theorem run_le (p : Char → Bool) (cs : List Char) : run p cs ≤ cs.length :=
  (takeWhile_sublist p).length_le

/-- A run ends in front of a character that is not of its class. -/
theorem run_append_of_avoids (hd : Avoids p ds) (cs : List Char) : run p (cs ++ ds) = run p cs := by
  have hnil : ds.takeWhile p = [] := by
    cases ds with
    | nil => rfl
    | cons d ds => rw [takeWhile_cons_of_neg (by simp [hd d rfl])]
  unfold run
  rw [takeWhile_append, hnil, List.append_nil]
  split
  · next h => rw [h]
  · rfl

theorem avoids_newline (hp : p '\n' = false) (ds : List Char) : Avoids p ('\n' :: ds) := by
  rintro _ ⟨⟩
  exact hp

theorem run_append (h : EndsLine cs) (hp : p '\n' = false) (ds : List Char) :
    run p (cs ++ ds) = run p cs := by
  obtain ⟨xs, rfl⟩ := h.exists_eq
  rw [append_assoc, singleton_append, run_append_of_avoids (avoids_newline hp _),
    run_append_of_avoids (avoids_newline hp _)]

theorem run_lt (h : EndsLine cs) (hp : p '\n' = false) : run p cs < cs.length := by
  obtain ⟨xs, rfl⟩ := h.exists_eq
  rw [run_append_of_avoids (avoids_newline hp _), length_append]
  exact Nat.lt_succ_of_le (run_le p xs)

theorem head?_append (h : EndsLine cs) (ds : List Char) : (cs ++ ds).head? = cs.head? := by
  cases cs with
  | nil => cases h
  | cons c cs => rfl

/-! ### Numbers -/

/-- The characters of numbers. -/
def isNumeric (c : Char) : Bool := isDigit c || ['.', 'e', 'E', '+', '-'].contains c

theorem Avoids.isDigit (hd : Avoids isNumeric ds) : Avoids isDigit ds := by
  intro d hmem
  have := hd d hmem
  simp only [isNumeric, Bool.or_eq_false_iff] at this
  exact this.1

theorem isNumeric_ne {c d : Char} (hc : isNumeric c = false) (hd : isNumeric d = true) : c ≠ d := by
  rintro rfl
  rw [hd] at hc
  cases hc

theorem fractionLength_eq_zero {c : Char} (hc : c ≠ '.') (cs : List Char) :
    fractionLength (c :: cs) = 0 := by
  unfold fractionLength
  split
  · next heq => exact absurd (List.cons.inj heq).1 hc
  · rfl

theorem fractionLength_le (cs : List Char) : fractionLength cs ≤ cs.length := by
  unfold fractionLength
  split
  · next cs =>
    have := run_le isDigit cs
    rw [length_cons]
    omega
  · exact Nat.zero_le _

theorem fractionLength_append (hd : Avoids isNumeric ds) (cs : List Char) :
    fractionLength (cs ++ ds) = fractionLength cs := by
  cases cs with
  | nil =>
    cases ds with
    | nil => rfl
    | cons d ds => exact fractionLength_eq_zero (isNumeric_ne (hd d rfl) rfl) ds
  | cons c cs =>
    by_cases hc : c = '.'
    · subst hc
      rw [cons_append, fractionLength, fractionLength, run_append_of_avoids hd.isDigit]
    · rw [cons_append, fractionLength_eq_zero hc, fractionLength_eq_zero hc]

theorem exponentLength_le (cs : List Char) : exponentLength cs ≤ cs.length := by
  fun_cases exponentLength cs with
  | case1 e he d ds hd =>
    have := run_le isDigit (d :: ds)
    rw [length_cons]
    omega
  | case2 e he d ds hd hs =>
    have := run_le isDigit ds
    rw [length_cons, length_cons]
    omega
  | _ => exact Nat.zero_le _

theorem exponentLength_append (hd : Avoids isNumeric ds) (cs : List Char) :
    exponentLength (cs ++ ds) = exponentLength cs := by
  match cs with
  | [] =>
    cases ds with
    | nil => rfl
    | cons d ds =>
      have he : d ≠ 'e' := isNumeric_ne (hd d rfl) rfl
      have hE : d ≠ 'E' := isNumeric_ne (hd d rfl) rfl
      simp [exponentLength, he, hE]
  | [c] =>
    cases ds with
    | nil => rfl
    | cons d ds =>
      have hdigit : isDigit d = false := hd.isDigit d rfl
      have hplus : d ≠ '+' := isNumeric_ne (hd d rfl) rfl
      have hminus : d ≠ '-' := isNumeric_ne (hd d rfl) rfl
      simp [exponentLength, hdigit, hplus, hminus]
  | [c, d] =>
    have hrun := run_append_of_avoids hd.isDigit [d]
    have hhead : ds.head?.any isDigit = false := by
      cases ds with
      | nil => rfl
      | cons x ds => exact hd.isDigit x rfl
    simp only [cons_append, nil_append] at hrun
    simp [exponentLength, hrun, hhead]
  | c :: d :: e :: cs =>
    have r₂ := run_append_of_avoids hd.isDigit (d :: e :: cs)
    have r₃ := run_append_of_avoids hd.isDigit (e :: cs)
    simp only [cons_append] at r₂ r₃ ⊢
    simp only [exponentLength, r₂, r₃, head?_cons]
    rfl

theorem numberLength_le (cs : List Char) : numberLength cs ≤ cs.length := by
  have hw := run_le isDigit cs
  have hf := fractionLength_le (cs.drop (run isDigit cs))
  have he := exponentLength_le
    (cs.drop (run isDigit cs + fractionLength (cs.drop (run isDigit cs))))
  rw [length_drop] at hf he
  unfold numberLength
  dsimp only
  omega

/-- A number ends in front of a character that is not of its class. -/
theorem numberLength_append_of_avoids (hd : Avoids isNumeric ds) (cs : List Char) :
    numberLength (cs ++ ds) = numberLength cs := by
  have hw := run_le isDigit cs
  have hf := fractionLength_le (cs.drop (run isDigit cs))
  rw [length_drop] at hf
  unfold numberLength
  dsimp only
  rw [run_append_of_avoids hd.isDigit, drop_append_of_le_length hw, fractionLength_append hd,
    drop_append_of_le_length (by omega), exponentLength_append hd]

theorem numberLength_append (h : EndsLine cs) (ds : List Char) :
    numberLength (cs ++ ds) = numberLength cs ∧ numberLength cs < cs.length := by
  have hp : isNumeric '\n' = false := by decide
  obtain ⟨xs, rfl⟩ := h.exists_eq
  rw [append_assoc, singleton_append,
    numberLength_append_of_avoids (avoids_newline hp _),
    numberLength_append_of_avoids (avoids_newline hp _), length_append]
  exact ⟨rfl, Nat.lt_succ_of_le (numberLength_le xs)⟩

/-! ### Comments -/

/-- A comment ends within its text, with its closing mark. -/
theorem commentRest_bounds {nested n : Nat} (h : commentRest nested cs = some n) :
    2 ≤ n ∧ n ≤ cs.length ∧ (cs.take n).getLast? = some '/' := by
  fun_induction commentRest nested cs generalizing n with
  | case1 nested cs ih | case3 cs k ih =>
    obtain ⟨m, hm, rfl⟩ := Option.map_eq_some_iff.1 h
    obtain ⟨hpos, hle, hlast⟩ := ih hm
    refine ⟨by omega, Nat.succ_le_succ (Nat.succ_le_succ hle), ?_⟩
    simp [getLast?_cons, hlast]
  | case2 cs =>
    cases h
    exact ⟨Nat.le_refl 2, Nat.succ_le_succ (Nat.succ_pos _), rfl⟩
  | case4 nested c cs hopen hclose ih =>
    obtain ⟨m, hm, rfl⟩ := Option.map_eq_some_iff.1 h
    obtain ⟨hpos, hle, hlast⟩ := ih hm
    refine ⟨by omega, Nat.succ_le_succ hle, ?_⟩
    simp [getLast?_cons, hlast]
  | case5 => cases h

/-- A comment that ends within a text ends there whatever follows. -/
theorem commentRest_congr : {nested n : Nat} → (cs : List Char) →
    commentRest nested (cs ++ vs) = some n → n ≤ cs.length →
    commentRest nested (cs ++ ws) = some n
  | _, _, [], h, hn | _, _, [_], h, hn => by
    have := (commentRest_bounds h).1
    simp only [length_nil, length_cons] at hn
    omega
  | nested, n, x :: y :: cs, h, hn => by
    have hstep {k : Nat} (h : (commentRest k (cs ++ vs)).map (· + 2) = some n) :
        (commentRest k (cs ++ ws)).map (· + 2) = some n := by
      obtain ⟨m, hm, rfl⟩ := Option.map_eq_some_iff.1 h
      rw [length_cons, length_cons] at hn
      rw [commentRest_congr cs hm (by omega)]
      rfl
    by_cases hopen : x = '/' ∧ y = '*'
    · obtain ⟨rfl, rfl⟩ := hopen
      exact hstep h
    by_cases hclose : x = '*' ∧ y = '/'
    · obtain ⟨rfl, rfl⟩ := hclose
      cases nested with
      | zero => exact h
      | succ k => exact hstep h
    · have hrest (ds : List Char) : commentRest nested (x :: y :: cs ++ ds) =
          (commentRest nested (y :: cs ++ ds)).map (· + 1) := by
        rw [cons_append, commentRest.eq_4]
        · rintro ds rfl hd
          exact hopen ⟨rfl, (List.cons.inj hd).1⟩
        · rintro ds rfl hd
          exact hclose ⟨rfl, (List.cons.inj hd).1⟩
      rw [hrest] at h ⊢
      obtain ⟨m, hm, rfl⟩ := Option.map_eq_some_iff.1 h
      rw [length_cons] at hn
      rw [commentRest_congr (y :: cs) hm (by omega)]
      rfl

theorem commentRest_append {nested n : Nat} (h : EndsLine cs)
    (hc : commentRest nested cs = some n) (ds : List Char) :
    commentRest nested (cs ++ ds) = some n ∧ n < cs.length := by
  obtain ⟨-, hle, hlast⟩ := commentRest_bounds hc
  rw [← List.append_nil cs] at hc
  exact ⟨commentRest_congr cs hc hle, h.lt_length hle hlast (by decide)⟩

/-! ### Strings -/

/-- The marks of strings are no hexadecimal digits. -/
theorem code2?_eq_none {a b : Char} (h : hexValue? a = none ∨ hexValue? b = none) :
    code2? a b = none := by
  unfold code2?
  rcases h with h | h
  · rw [h]
    rfl
  · rw [h]
    cases hexValue? a <;> rfl

theorem code4?_eq_none {a b c d : Char} (h : code2? a b = none ∨ code2? c d = none) :
    code4? a b c d = none := by
  unfold code4?
  rcases h with h | h
  · rw [h]
    rfl
  · rw [h]
    cases code2? a b <;> rfl

theorem escape_x {m : Char} (hm : hexValue? m = none) (h : m ∈ cs.take 2) :
    escape ('x' :: cs) = some (some 'x', 1) := by
  match cs with
  | [] | [_] => simp [escape]
  | a :: b :: cs =>
    have hab : m = a ∨ m = b := by simpa using h
    have hcode : code2? a b = none := code2?_eq_none (by rcases hab with rfl | rfl <;> simp [hm])
    simp [escape, hcode]

theorem escape_u {m : Char} (hm : hexValue? m = none) (h : m ∈ cs.take 4) :
    escape ('u' :: cs) = some (some 'u', 1) := by
  match cs with
  | [] | [_] | [_, _] | [_, _, _] => simp [escape]
  | a :: b :: d :: e :: cs =>
    have habde : (m = a ∨ m = b) ∨ m = d ∨ m = e := by simpa [or_assoc] using h
    have hcode : code4? a b d e = none := code4?_eq_none (habde.imp
      (fun hab => code2?_eq_none (by rcases hab with rfl | rfl <;> simp [hm]))
      (fun hde => code2?_eq_none (by rcases hde with rfl | rfl <;> simp [hm])))
    simp [escape, hcode]

theorem escape_pos {value : Option Char} {width : Nat} (h : escape cs = some (value, width)) :
    0 < width := by
  unfold escape at h
  grind

/-- What a backslash stands for does not depend on what follows a mark behind it. -/
theorem escape_congr {m : Char} (hm : hexValue? m = none) {value : Option Char} {width : Nat}
    (h : escape (cs ++ vs) = some (value, width)) (hmem : m ∈ cs.drop width) (ws : List Char) :
    escape (cs ++ ws) = some (value, width) := by
  have hpos := escape_pos h
  match cs with
  | [] => simp at hmem
  | c :: cs =>
    have hmem : m ∈ cs := by
      obtain ⟨n, rfl⟩ := Nat.exists_eq_add_one.2 hpos
      exact mem_of_mem_drop hmem
    -- the mark is among the characters that could be digits, or there are digits enough
    have htake {n : Nat} (hn : cs.length ≤ n) (ds : List Char) : m ∈ (cs ++ ds).take n := by
      rw [take_append, take_of_length_le hn]
      exact mem_append_left _ hmem
    rw [cons_append] at h ⊢
    by_cases hx : c = 'x'
    · subst hx
      match cs with
      | a :: b :: cs => exact h
      | [] | [_] =>
        rw [escape_x hm (htake (by simp) vs)] at h
        rw [escape_x hm (htake (by simp) ws), h]
    · by_cases hu : c = 'u'
      · subst hu
        match cs with
        | a :: b :: d :: e :: cs => exact h
        | [] | [_] | [_, _] | [_, _, _] =>
          rw [escape_u hm (htake (by simp) vs)] at h
          rw [escape_u hm (htake (by simp) ws), h]
      · rw [← h]
        simp [escape, hx, hu]

/-- A string ends within its text, with its mark. -/
theorem stringRest_bounds {m : Char} {value : List Char} {n : Nat}
    (h : stringRest m cs = some (value, n)) :
    0 < n ∧ n ≤ cs.length ∧ (cs.take n).getLast? = some m := by
  fun_induction stringRest m cs generalizing value n with
  | case1 | case3 | case4 => cases h
  | case2 cs =>
    cases h
    exact ⟨Nat.one_pos, Nat.succ_pos _, rfl⟩
  | case5 cs value' width he hc hn ih =>
    obtain ⟨⟨rest, k⟩, hk, heq⟩ := Option.map_eq_some_iff.1 h
    cases heq
    obtain ⟨hpos, hle, hlast⟩ := ih hk
    rw [length_drop] at hle
    refine ⟨Nat.succ_pos _, by rw [length_cons]; omega, ?_⟩
    rw [Nat.add_comm k, take_succ_cons, take_add, getLast?_cons, getLast?_append, hlast]
    rfl
  | case6 c cs hc hn hb ih =>
    obtain ⟨⟨rest, k⟩, hk, heq⟩ := Option.map_eq_some_iff.1 h
    cases heq
    obtain ⟨hpos, hle, hlast⟩ := ih hk
    refine ⟨Nat.succ_pos _, Nat.succ_le_succ hle, ?_⟩
    rw [take_succ_cons, getLast?_cons, hlast]
    rfl

/-- A string that ends within a text ends there whatever follows. -/
theorem stringRest_congr {m : Char} (hm : hexValue? m = none) {value : List Char} {n : Nat}
    (cs : List Char) (h : stringRest m (cs ++ vs) = some (value, n)) (hn : n ≤ cs.length)
    (ws : List Char) : stringRest m (cs ++ ws) = some (value, n) := by
  match cs with
  | [] =>
    have := (stringRest_bounds h).1
    rw [length_nil] at hn
    omega
  | c :: cs =>
    rw [cons_append, stringRest] at h ⊢
    split
    · next hc =>
      rw [if_pos hc] at h
      exact h
    next hc =>
    rw [if_neg hc] at h
    split
    · next hl =>
      rw [if_pos hl] at h
      exact h
    next hl =>
    rw [if_neg hl] at h
    split
    · next hb =>
      rw [if_pos hb] at h
      split at h
      · cases h
      · next value' width he =>
        obtain ⟨⟨rest, k⟩, hk, heq⟩ := Option.map_eq_some_iff.1 h
        cases heq
        rw [length_cons] at hn
        have hle : width ≤ cs.length := by omega
        rw [drop_append_of_le_length hle] at hk
        have hmem : m ∈ cs.drop width := by
          have := mem_of_getLast? (stringRest_bounds hk).2.2
          rw [take_append_of_le_length (by rw [length_drop]; omega)] at this
          exact mem_of_mem_take this
        rw [escape_congr hm he hmem]
        dsimp only
        rw [drop_append_of_le_length hle,
          stringRest_congr hm (cs.drop width) hk (by rw [length_drop]; omega) ws]
        rfl
    · next hb =>
      rw [if_neg hb] at h
      obtain ⟨⟨rest, k⟩, hk, heq⟩ := Option.map_eq_some_iff.1 h
      cases heq
      rw [length_cons] at hn
      rw [stringRest_congr hm cs hk (by omega) ws]
      rfl
termination_by cs.length
decreasing_by all_goals simp only [length_drop, length_cons]; omega

theorem stringRest_append {mark : Char} (hm : mark = '"' ∨ mark = '\'') {value : List Char} {n : Nat}
    (h : EndsLine cs) (hs : stringRest mark cs = some (value, n)) (ds : List Char) :
    stringRest mark (cs ++ ds) = some (value, n) ∧ n < cs.length := by
  obtain ⟨-, hle, hlast⟩ := stringRest_bounds hs
  rw [← List.append_nil cs] at hs
  refine ⟨stringRest_congr ?_ cs hs hle ds, h.lt_length hle hlast ?_⟩
  all_goals rcases hm with rfl | rfl <;> decide

/-! ### Operators -/

theorem operator?_cons_cons (c d : Char) (cs : List Char) :
    operator? (c :: d :: cs) = operator? [c, d] := by
  have hlen : ∀ op ∈ operators, op.toList.length ≤ 2 := by decide
  unfold operator?
  rw [← head?_filter, ← head?_filter]
  refine congrArg _ (filter_congr fun op hop => ?_)
  match op.toList, hlen op hop with
  | [], _ | [_], _ | [_, _], _ => rfl

theorem operator?_append (c : Char) (h : EndsLine cs) (ds : List Char) :
    operator? (c :: (cs ++ ds)) = operator? (c :: cs) := by
  obtain ⟨d, cs, rfl⟩ := exists_cons_of_ne_nil h.ne_nil
  exact (operator?_cons_cons ..).trans (operator?_cons_cons ..).symm

theorem operator?_lt {c : Char} (h : EndsLine (c :: cs)) {op : String}
    (ho : operator? (c :: cs) = some op) : op.length - 1 < cs.length := by
  have hn : ∀ op ∈ operators, '\n' ∉ op.toList ∧ op.toList ≠ [] := by decide
  obtain ⟨hnl, hne⟩ := hn op (mem_of_find?_eq_some ho)
  have ho := find?_some ho
  have hp : op.toList <+: c :: cs := isPrefixOf_iff_prefix.1 ho
  have hlt : op.toList.length < (c :: cs).length := by
    refine Nat.lt_of_le_of_ne hp.length_le fun heq => hnl ?_
    rw [hp.eq_of_length heq]
    exact mem_of_getLast? h
  have := length_pos_iff.2 hne
  rw [String.length_toList, length_cons] at hlt
  rw [String.length_toList] at this
  omega

/-! ### Pieces -/

/-- A token that ends with a text or before is the same whatever follows. -/
theorem plain_congr (kind : Token.Kind) (c : Char) {more : Nat} (h : more ≤ cs.length)
    (ds : List Char) : plain kind c (cs ++ ds) more = plain kind c cs more := by
  unfold plain
  rw [take_append_of_le_length h]

theorem classify_append_of_ne {c : Char} (h : EndsLine (c :: cs)) (hc : c ≠ '\n')
    (hf : ∀ f, (classify c cs).1 ≠ .fault f) (ds : List Char) :
    classify c (cs ++ ds) = classify c cs ∧ (classify c cs).2 < cs.length := by
  have h' := h.tail hc
  revert hf
  unfold classify
  rw [head?_append h', if_neg hc, if_neg hc]
  split
  · intro
    exact ⟨by rw [run_append h' (by decide)], run_lt h' (by decide)⟩
  split
  · intro
    exact ⟨by rw [run_append h' (by decide)], run_lt h' (by decide)⟩
  split
  · next hs =>
    obtain ⟨cs, rfl⟩ : ∃ cs', cs = '*' :: cs' := by
      obtain ⟨d, cs, rfl⟩ := exists_cons_of_ne_nil h'.ne_nil
      rw [Bool.and_eq_true, decide_eq_true_iff, decide_eq_true_iff] at hs
      exact ⟨cs, by rw [Option.some.inj hs.2]⟩
    cases hr : commentRest 0 cs with
    | none => exact fun hf => absurd hr (by simpa [hr] using hf .openComment)
    | some n =>
      intro
      obtain ⟨hr', hlt⟩ := commentRest_append (h'.tail (by decide)) hr ds
      simp only [cons_append, drop_one, tail_cons, hr, hr', length_cons]
      exact ⟨trivial, by omega⟩
  split
  · intro
    have hlt := run_lt h' (p := isWordPart) (by decide)
    dsimp only
    rw [run_append h' (by decide), take_append_of_le_length (Nat.le_of_lt hlt),
      plain_congr _ _ (Nat.le_of_lt hlt)]
    exact ⟨rfl, hlt⟩
  split
  · intro
    obtain ⟨hn, hlt⟩ := numberLength_append h ds
    have hpos := length_pos_iff.2 h'.ne_nil
    rw [length_cons] at hlt
    rw [← cons_append, hn, plain_congr _ _ (by omega)]
    exact ⟨rfl, by unfold plain; omega⟩
  split
  · next hq =>
    cases hr : stringRest c cs with
    | none => exact fun hf => absurd rfl (hf .openString)
    | some r =>
      intro
      obtain ⟨hr, hlt⟩ := stringRest_append (by simpa using hq) h' hr ds
      rw [hr]
      exact ⟨rfl, hlt⟩
  split
  · rw [run_append h' (by decide)]
    have hlt := run_lt h' (p := isHex) (by decide)
    split
    · exact fun hf => absurd rfl (hf (.stray c))
    · intro
      exact ⟨plain_congr _ _ (Nat.le_of_lt hlt) ds, hlt⟩
  · rw [operator?_append c h']
    cases ho : operator? (c :: cs) with
    | some op => exact fun _ => ⟨rfl, operator?_lt h ho⟩
    | none =>
      cases punctuation? c with
      | some kind => exact fun _ => ⟨rfl, length_pos_iff.2 h'.ne_nil⟩
      | none => exact fun hf => absurd rfl (hf (.stray c))

/-- **What follows a text that ends with a newline does not matter** to a piece inside it, and the
text after the piece ends with the newline again, unless the piece is that newline. -/
theorem classify_append {c : Char} (h : EndsLine (c :: cs))
    (hf : ∀ f, (classify c cs).1 ≠ .fault f) (ds : List Char)
    (hd : ∀ d ∈ ds.head?, Source.isBlank d = false) :
    classify c (cs ++ ds) = classify c cs ∧ (classify c cs).2 ≤ cs.length ∧
      (EndsLine (cs.drop (classify c cs).2) ∨ c = '\n' ∧ cs = []) := by
  by_cases hc : c = '\n'
  · subst hc
    unfold classify
    rw [if_pos rfl, if_pos rfl]
    cases cs with
    | nil =>
      have hz : run Source.isBlank ds = 0 := by
        cases ds with
        | nil => rfl
        | cons d ds => simp [run, hd d rfl]
      exact ⟨congrArg _ hz, Nat.zero_le _, .inr ⟨rfl, rfl⟩⟩
    | cons d cs =>
      have h' := EndsLine.cons_cons_iff.1 h
      have hlt := run_lt h' (p := Source.isBlank) (by decide)
      exact ⟨by rw [run_append h' (by decide)], Nat.le_of_lt hlt, .inl (h'.drop hlt)⟩
  · obtain ⟨heq, hlt⟩ := classify_append_of_ne h hc hf ds
    exact ⟨heq, Nat.le_of_lt hlt, .inl ((h.tail hc).drop hlt)⟩

/-- **The pieces of two texts in a row** are the pieces of the first one, which ends with a newline,
and those of the second one, which starts with no blank. -/
theorem split_append {cs ds : List Char} (h : EndsLine cs)
    (hf : ∀ p ∈ split cs, ∀ f, p.form ≠ .fault f) (hd : ∀ d ∈ ds.head?, Source.isBlank d = false) :
    split (cs ++ ds) = split cs ++ split ds := by
  fun_induction split cs with
  | case1 => cases h
  | case2 c cs form more hm ih =>
    obtain ⟨hc, hle, hr⟩ := classify_append h (by simpa [hm] using hf _ (mem_cons_self ..)) ds hd
    rw [hm] at hc hle hr
    rw [cons_append, split, hc]
    dsimp only at hle hr ⊢
    rw [take_append_of_le_length hle, drop_append_of_le_length hle]
    rcases hr with hr | ⟨rfl, rfl⟩
    · rw [ih hr fun p hp => hf p (mem_cons_of_mem _ hp), cons_append]
    · rw [drop_nil, split, nil_append, cons_append, nil_append]

/-- A newline without blanks after it. -/
def newline : Piece := ⟨.lineBreak, ['\n']⟩

/-- The last piece of a text that ends with a newline is that newline. -/
theorem split_eq_concat {cs : List Char} (h : EndsLine cs)
    (hf : ∀ p ∈ split cs, ∀ f, p.form ≠ .fault f) :
    ∃ ps, split cs = ps ++ [newline] := by
  fun_induction split cs with
  | case1 => cases h
  | case2 c cs form more hm ih =>
    obtain ⟨-, -, hr⟩ := classify_append h (by simpa [hm] using hf _ (mem_cons_self ..))
      [] (fun _ hd => by cases hd)
    rw [hm] at hr
    rcases hr with hr | ⟨rfl, rfl⟩
    · obtain ⟨ps, hps⟩ := ih hr fun p hp => hf p (mem_cons_of_mem _ hp)
      exact ⟨_ :: ps, by rw [hps, cons_append]⟩
    · cases hm
      exact ⟨[], by simp [split, newline]⟩

/-- Blanks start with a blank. -/
theorem isBlank_of_classify {c : Char} {cs : List Char} (h : (classify c cs).1 = .blank) :
    Source.isBlank c = true := by
  revert h
  fun_cases classify c cs with
  | case2 => intro; assumption
  | _ => rintro ⟨⟩

end Pine.Piece
