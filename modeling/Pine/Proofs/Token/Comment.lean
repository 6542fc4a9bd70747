import Pine.Proofs.Token.Alike
import Pine.Proofs.Token.Blank

/-!
# Comments between tokens

A comment in marks with blanks around it can be put in front of a token. Comments nest, so the text
of the comment holds neither mark and does not end with a slash, which would open a comment together
with the star of the closing mark. The tokens keep their words. A token that is the first one of a
block, or the first one after a block, is left out: a line that starts with a comment opens and
closes no block.
-/

namespace Pine

open List

/-! ### Line ends -/

namespace Source

theorem unifyLineEnds_append {ds : List Char} (h : ds.head? ≠ some '\n') (cs : List Char) :
    unifyLineEnds (cs ++ ds) = unifyLineEnds cs ++ unifyLineEnds ds := by
  fun_induction unifyLineEnds cs with
  | case1 cs ih => simp [unifyLineEnds, ih]
  | case2 cs hcs ih =>
    rw [cons_append, unifyLineEnds.eq_2, ih, cons_append]
    intro es hes
    cases cs with
    | nil => exact h (by rw [← nil_append ds, hes]; rfl)
    | cons c cs => exact hcs cs (by rw [(List.cons.inj hes).1])
  | case3 c cs _ hc ih =>
    rw [cons_append, unifyLineEnds.eq_3, ih, cons_append]
    · exact fun es h _ => hc h
    · exact hc
  | case4 => rfl

theorem normalize_append {cs ds : List Char} (hn : ds.head? ≠ some '\n')
    (hm : ds.head? ≠ some mark) : normalize (cs ++ ds) = normalize cs ++ unifyLineEnds ds := by
  cases cs with
  | nil => exact congrArg unifyLineEnds (dropMark_eq_self hm)
  | cons c cs =>
    rw [normalize, normalize, ← unifyLineEnds_append hn, cons_append, dropMark, dropMark]
    split
    · rfl
    · rfl

/-! ### Remarks -/

/-- A text that can stand between the marks of a comment: it holds neither mark, and no mark arises
at its end. -/
def IsRemark (c : List Char) : Prop :=
  ¬['/', '*'] <:+: c ∧ ¬['*', '/'] <:+: c ∧ c.getLast? ≠ some '/'

/-- The comment with the given text, between blanks. -/
def remark (c : List Char) : List Char := ' ' :: '/' :: '*' :: (c ++ ['*', '/', ' '])

variable {x : Char} {c : List Char}

theorem unifyLineEnds_remark (c v : List Char) :
    unifyLineEnds (remark c ++ v) = remark (unifyLineEnds c) ++ unifyLineEnds v := by
  have hc : unifyLineEnds (c ++ '*' :: '/' :: ' ' :: v) =
      unifyLineEnds c ++ '*' :: '/' :: ' ' :: unifyLineEnds v := by
    rw [unifyLineEnds_append (by simp)]
    simp [unifyLineEnds]
  simp [remark, unifyLineEnds, hc]

theorem isRemark_cons : IsRemark (x :: c) ↔ (x = '/' → c ≠ [] ∧ c.head? ≠ some '*') ∧
    (x = '*' → c.head? ≠ some '/') ∧ IsRemark c := by
  have hwithin (a b : Char) : [a, b] <:+: x :: c ↔ (x = a ∧ c.head? = some b) ∨ [a, b] <:+: c := by
    rw [infix_cons_iff, cons_prefix_cons, eq_comm]
    cases c with
    | nil => simp
    | cons y c => simp [cons_prefix_cons, eq_comm]
  have hlast : (x :: c).getLast? = some '/' ↔ (x = '/' ∧ c = []) ∨ c.getLast? = some '/' := by
    cases c <;> simp
  unfold IsRemark
  rw [hwithin, hwithin, ne_eq, hlast]
  grind

theorem unifyLineEnds_eq_nil_iff : unifyLineEnds c = [] ↔ c = [] := by
  fun_cases unifyLineEnds c <;> simp

theorem head?_unifyLineEnds {d : Char} (hn : d ≠ '\n') (hr : d ≠ '\r') :
    (unifyLineEnds c).head? = some d ↔ c.head? = some d := by
  fun_cases unifyLineEnds c with
  | case1 cs => simp [Ne.symm hn, Ne.symm hr]
  | case2 cs _ => simp [Ne.symm hn, Ne.symm hr]
  | case3 x cs _ _ => simp
  | case4 => simp

theorem IsRemark.unifyLineEnds (h : IsRemark c) : IsRemark (unifyLineEnds c) := by
  fun_induction Source.unifyLineEnds c with
  | case1 cs ih =>
    have hcs := (isRemark_cons.1 (isRemark_cons.1 h).2.2).2.2
    exact isRemark_cons.2 ⟨by simp, by simp, ih hcs⟩
  | case2 cs _ ih => exact isRemark_cons.2 ⟨by simp, by simp, ih (isRemark_cons.1 h).2.2⟩
  | case3 x cs _ _ ih =>
    obtain ⟨hslash, hstar, hcs⟩ := isRemark_cons.1 h
    refine isRemark_cons.2 ⟨fun hx => ⟨?_, ?_⟩, fun hx => ?_, ih hcs⟩
    · rw [ne_eq, unifyLineEnds_eq_nil_iff]
      exact (hslash hx).1
    · rw [ne_eq, head?_unifyLineEnds (by decide) (by decide)]
      exact (hslash hx).2
    · rw [ne_eq, head?_unifyLineEnds (by decide) (by decide)]
      exact hstar hx
  | case4 => exact h

end Source

/-! ### Pieces -/

namespace Piece

open Source (IsRemark remark)

variable {c vs : List Char}

theorem commentRest_remark (h : IsRemark c) (ds : List Char) :
    commentRest 0 (c ++ '*' :: '/' :: ds) = some (c.length + 2) := by
  induction c with
  | nil => rfl
  | cons x c ih =>
    obtain ⟨hslash, hstar, hc⟩ := Source.isRemark_cons.1 h
    rw [cons_append, commentRest.eq_4, ih hc]
    · rfl
    · intro es hx hes
      cases c with
      | nil => exact (hslash hx).1 rfl
      | cons y c => exact (hslash hx).2 (by rw [(List.cons.inj hes).1]; rfl)
    · intro es hx hes
      cases c with
      | nil => cases hes
      | cons y c => exact hstar hx (by rw [(List.cons.inj hes).1]; rfl)

/-- In front of text that starts with no blank, the comment is one piece and the blank behind it
another one. -/
theorem split_remark (h : IsRemark c) (hv : Avoids Source.isBlank vs) :
    split ('/' :: '*' :: (c ++ '*' :: '/' :: ' ' :: vs)) =
      ⟨.blockComment, '/' :: '*' :: (c ++ ['*', '/'])⟩ :: ⟨.blank, [' ']⟩ :: split vs := by
  have hcomment : classify '/' ('*' :: (c ++ '*' :: '/' :: ' ' :: vs)) =
      (.blockComment, c.length + 3) := by
    have hrest : commentRest 0 (('*' :: (c ++ '*' :: '/' :: ' ' :: vs)).drop 1) =
        some (c.length + 2) := commentRest_remark h _
    unfold classify
    rw [if_neg (by decide), if_neg (by decide), if_neg (by simp), if_pos (by simp), hrest]
  have hblank : classify ' ' vs = (.blank, 0) := by
    have hrun := run_append_of_avoids hv []
    rw [classify, if_neg (by decide), if_pos (by decide), ← nil_append vs, hrun]
    rfl
  have htext : c ++ '*' :: '/' :: ' ' :: vs = (c ++ ['*', '/']) ++ ' ' :: vs := by simp
  have hlen : c.length + 2 = (c ++ ['*', '/']).length := by simp
  rw [split, hcomment]
  dsimp only
  rw [take_succ_cons, drop_succ_cons, htext, hlen, take_left, drop_left, split,
    hblank]
  rfl

theorem ne_newline_of_split {text : List Char} {kind : Token.Kind} {lexeme : String}
    {ps : List Piece} (h : split vs = ⟨.token kind lexeme, text⟩ :: ps) :
    ∀ d ∈ vs.head?, d ≠ '\n' := by
  rintro d hd rfl
  obtain ⟨ds, rfl⟩ := head?_eq_some_iff.1 hd
  rw [split, classify, if_pos rfl] at h
  cases h

/-- **A comment in front of a piece adds blanks and a comment to the pieces.** The blank in front of
it may go to the piece before; in front of the end, the whole comment may belong to a comment that
is there already. -/
theorem exists_split_remark {qs rs : List Piece} (h : split (qs.flatMap text ++ vs) = qs ++ rs)
    (hf : ∀ q ∈ qs, ∀ f, q.form ≠ .fault f)
    (hrs : rs = [] ∨ ∃ r ∈ rs.head?, ∃ kind lexeme, r.form = .token kind lexeme)
    (hc : IsRemark c) (hline : rs = [] → '\n' ∉ c) :
    ∃ qs' ms, split (qs.flatMap text ++ (remark c ++ vs)) = qs' ++ (ms ++ rs) ∧
      Repadded qs qs' ∧ (∀ m ∈ ms, m.form = .blank ∨ m.form = .blockComment) ∧
      (ms = [] → rs = []) := by
  obtain rfl : rs.flatMap text = vs := by
    have := flatMap_text_split (qs.flatMap text ++ vs)
    rw [h, flatMap_append] at this
    exact append_cancel_left this
  have hsplit := split_right qs h
  generalize hvs : rs.flatMap text = vs at *
  have hv : ∀ d ∈ vs.head?, Source.isBlank d = false ∧ d ≠ '\n' := by
    obtain rfl | ⟨⟨form, text⟩, hr, kind, lexeme, rfl⟩ := hrs
    · rw [← hvs]
      intro d hd
      cases hd
    · obtain ⟨rs', rfl⟩ := head?_eq_some_iff.1 hr
      exact fun d hd => ⟨isBlank_of_split hsplit d hd, ne_newline_of_split hsplit d hd⟩
  have hpad : split ('/' :: '*' :: (c ++ '*' :: '/' :: ' ' :: vs)) = _ :: _ :: rs :=
    (split_remark hc fun d hd => (hv d hd).1).trans (by rw [hsplit])
  have htext : remark c ++ vs = ' ' :: '/' :: '*' :: (c ++ '*' :: '/' :: ' ' :: vs) := by
    simp [remark]
  rw [htext]
  generalize hcs : '*' :: (c ++ '*' :: '/' :: ' ' :: vs) = cs at *
  have hblank : split (' ' :: '/' :: cs) = ⟨.blank, [' ']⟩ :: split ('/' :: cs) := by
    have hclass : classify ' ' ('/' :: cs) = (.blank, 0) := by
      rw [classify, if_neg (by decide), if_pos (by decide)]
      rfl
    rw [split, hclass]
    rfl
  obtain rfl | ⟨ps, q, rfl⟩ := eq_nil_or_concat qs
  · refine ⟨[⟨.blank, [' ']⟩], [_, _], by rw [flatMap_nil, nil_append, hblank, hpad]; rfl,
      .inl ⟨rfl, _, rfl⟩, by simp, by simp⟩
  · rw [concat_eq_append] at *
    have hps : split (ps.flatMap text ++ (q.text ++ vs)) = ps ++ (q :: rs) := by
      rw [← append_assoc]
      simpa using h
    have hq : split (q.text ++ vs) = q :: rs := by
      have := split_right ps hps
      rwa [flatMap_cons, hvs] at this
    by_cases hg : q.form.goesOn = true
    · -- the blank goes to the piece before
      rw [← hq] at hps
      have hbefore := split_blank ('/' :: cs) ps hps (fun p hp => hf p (mem_append_left _ hp))
        (.inl (text_ne_nil hq))
      have hpieces : split ((ps ++ [q]).flatMap text ++ ' ' :: '/' :: cs) = (ps ++ [⟨q.form,
          q.text ++ ' ' :: ('/' :: cs).take (run q.form.takes ('/' :: cs))⟩]) ++
          split (('/' :: cs).drop (run q.form.takes ('/' :: cs))) := by
        rw [split_goesOn hq hg] at hbefore
        simpa using hbefore
      rw [hpieces]
      by_cases hl : q.form = .lineComment
      · -- only the end comes after a comment up to the end of its line
        have hend : vs = [] := by
          have havoid := avoids_of_split hq hg
          rw [hl] at havoid
          cases vs with
          | nil => rfl
          | cons d ds => exact absurd (by simpa [Form.takes] using havoid d rfl) (hv d rfl).2
        obtain rfl : rs = [] := by
          rw [← hsplit, hend, split]
        have hrun : run q.form.takes ('/' :: cs) = ('/' :: cs).length := by
          refine run_eq_length fun d hd => ?_
          have hd : d ∈ c ∨ d ∈ ['/', '*', ' '] := by
            rw [← hcs, hend] at hd
            simp only [mem_cons, mem_append, not_mem_nil, or_false] at hd ⊢
            grind
          have hmarks : ['/', '*', ' '].all (· ≠ '\n') = true := rfl
          rw [hl]
          rcases hd with hd | hd
          · exact decide_eq_true fun heq => hline rfl (heq ▸ hd)
          · exact all_eq_true.1 hmarks d hd
        rw [hrun, drop_length, split]
        exact ⟨_, [], rfl, .inr ⟨ps, q, _, rfl, rfl⟩, forall_mem_nil _, fun _ => rfl⟩
      · have htakes : q.form.takes '/' = false := by
          revert hg hl
          cases q.form <;> simp [Form.goesOn, Form.takes, Source.isBlank]
        have hrun : run q.form.takes ('/' :: cs) = 0 := by simp [run, htakes]
        rw [hrun, drop_zero, hpad]
        exact ⟨_, [_, _], rfl, .inr ⟨ps, q, _, rfl, rfl⟩, by simp, by simp⟩
    · have hlast : ∀ p ∈ (ps ++ [q]).getLast?, p.form.goesOn = false := by
        intro p hp
        rw [getLast?_concat] at hp
        obtain rfl : q = p := Option.some.inj hp
        exact Bool.eq_false_iff.2 hg
      have hall : split ((ps ++ [q]).flatMap text ++ ([] ++ vs)) =
          (ps ++ [q]) ++ split ([] ++ vs) := by
        rw [nil_append, h, hsplit]
      have hbefore := split_blank ('/' :: cs) (ps ++ [q]) hall hf (.inr hlast)
      rw [nil_append, hblank, hpad] at hbefore
      exact ⟨_, [_, _, _], hbefore, .inr ⟨ps, q, q.text, rfl, rfl⟩, by simp, by simp⟩

end Piece

/-! ### Tokens -/

namespace Layout

/-- The end of input is where the text of the pieces ends. -/
theorem exists_feedAll_of_eof {ps : List Piece} (he : (runAll 0 ps).2 = none)
    (hp : ∀ p ∈ ps, p.IsText) {t : Token}
    (ht : t ∈ (runAll 0 ps).1.tokens.toList) (hk : t.kind = .eof) :
    ∃ s, feedAll none ps = (s, none) ∧ t.start = s.place.offset := by
  obtain ⟨u, hb, hu⟩ := exists_finish he hp
  have hend : t = eofAt u.place := by
    rw [hu, toList_finish, mem_append, mem_append] at ht
    rcases ht with (ht | ht) | ht
    · exact absurd hk ((hb.endLine _).eof t ht)
    · rw [eq_of_mem_replicate ht] at hk
      cases hk
    · exact mem_singleton.1 ht
  have happ : runAll 0 (ps ++ []) = _ := runAll_append fun _ => nofun
  rw [List.append_nil, head?_nil, hu] at happ
  cases hs : feedAll none ps with
  | mk s e =>
    rw [hs] at happ
    cases e with
    | some e => cases happ
    | none =>
      have hfinish : u.finish.tokens.toList = s.finish.tokens.toList := by
        rw [show u.finish = s.finish from congrArg Prod.fst happ]
      rw [toList_finish, toList_finish] at hfinish
      have hplace : eofAt u.place = eofAt s.place := by
        simpa using (append_inj' hfinish rfl).2
      exact ⟨s, rfl, by rw [hend, hplace]; rfl⟩

end Layout

namespace Token

open Layout
open Source (IsRemark remark normalize)

variable {u v c : List Char} {t : Token} {ts ts' : List Token}

/-- The pieces in front of a token that is no line structure. -/
theorem exists_pieces_of_start (he : (lex 0 (u ++ v)).error = none)
    (ht : (lex 0 (u ++ v)).tokens = ts ++ t :: ts') (hstart : t.start = (normalize u).length)
    (hn : v.head? ≠ some '\n') (hm : v.head? ≠ some Source.mark) (hk : t.kind.isLayout = false) :
    ∃ qs rs s, Piece.split (normalize u ++ Source.unifyLineEnds v) = qs ++ rs ∧
      qs.flatMap Piece.text = normalize u ∧ feedAll rs.head? qs = (s, none) ∧
      ((rs = [] ∧ t.kind = .eof) ∨ t.kind ≠ .eof ∧ s.tokens.toList = ts ∧
        ∃ r rs', rs = r :: rs' ∧ r.form = .token t.kind t.lexeme) := by
  have htext := Piece.flatMap_text_split (normalize u ++ Source.unifyLineEnds v)
  unfold lex at he ht
  rw [Source.normalize_append hn hm] at he ht
  generalize hps : Piece.split (normalize u ++ Source.unifyLineEnds v) = ps at *
  change (runAll 0 ps).2 = none at he
  change (runAll 0 ps).1.tokens.toList = _ at ht
  -- the pieces before the token make up the text before it
  have hbefore {qs rs : List Piece} (happ : ps = qs ++ rs) {after : Option Piece} {s : Layout}
      (hs : feedAll after qs = (s, none)) (hoffset : t.start = s.place.offset) :
      qs.flatMap Piece.text = normalize u := by
    rw [happ, flatMap_append] at htext
    refine (append_inj htext ?_).1
    rw [place_feedAll hs, Place.offset_after, hstart] at hoffset
    dsimp only [Place.first] at hoffset
    omega
  by_cases heof : t.kind = .eof
  · have hmem : t ∈ (runAll 0 ps).1.tokens.toList := by
      rw [ht]
      simp
    obtain ⟨s, hs, hoffset⟩ := exists_feedAll_of_eof he
      (fun p hp => Piece.isText_of_mem_split (hps ▸ hp)) hmem heof
    exact ⟨ps, [], s, (List.append_nil _).symm, hbefore (List.append_nil _).symm hs hoffset, hs,
      .inl ⟨rfl, heof⟩⟩
  · have htoken : t.kind.isText = true := by
      rw [Kind.isText, hk]
      exact decide_eq_true heof
    obtain ⟨qs, p, rs, s, happ, hs, hts, hoffset, hform⟩ := exists_piece htoken he ht
    exact ⟨qs, p :: rs, s, happ, hbefore happ hs hoffset, hs, .inr ⟨heof, hts, p, rs, rfl,
      hform⟩⟩

/-- **A comment in front of a token does not change the words of a source.** The token starts where
`v` does; it is no line structure and, unless it is the end of input, stands neither first in a
block nor first after one. In front of the end of input the comment holds no line end, because it
may come to stand in a comment that ends with its line. -/
theorem words_lex_remark (he : (lex 0 (u ++ v)).error = none)
    (ht : (lex 0 (u ++ v)).tokens = ts ++ t :: ts') (hstart : t.start = (normalize u).length)
    (hn : v.head? ≠ some '\n') (hm : v.head? ≠ some Source.mark) (hk : t.kind.isLayout = false)
    (hprev : t.kind = .eof ∨ ∀ p ∈ ts.getLast?, p.kind ≠ .indent ∧ p.kind ≠ .dedent)
    (hc : IsRemark c) (hline : t.kind = .eof → '\n' ∉ c ∧ '\r' ∉ c) :
    (lex 0 (u ++ remark c ++ v)).error = none ∧
      (lex 0 (u ++ remark c ++ v)).tokens.map Token.word =
        (lex 0 (u ++ v)).tokens.map Token.word := by
  obtain ⟨qs, rs, s, happ, hqs, hs, hrs⟩ := exists_pieces_of_start he ht hstart hn hm hk
  have hold : normalize (u ++ v) = normalize u ++ Source.unifyLineEnds v :=
    Source.normalize_append hn hm
  have hnew : normalize (u ++ remark c ++ v) =
      normalize u ++ (remark (Source.unifyLineEnds c) ++ Source.unifyLineEnds v) := by
    rw [append_assoc, Source.normalize_append (by simp [remark])
      (by simp [remark, Source.mark]), Source.unifyLineEnds_remark]
  have hrun : (runAll 0 (qs ++ rs)).2 = none := by
    rw [← happ, ← hold]
    exact he
  have hfault (q : Piece) (hq : q ∈ qs) : ∀ f, q.form ≠ .fault f :=
    form_ne_fault_of_runAll hrun q (mem_append_left _ hq)
  have hcode : rs = [] ∨ ∃ r ∈ rs.head?, ∃ kind lexeme, r.form = .token kind lexeme := by
    obtain ⟨hnil, -⟩ | ⟨-, -, r, rs', rfl, hform⟩ := hrs
    · exact .inl hnil
    · exact .inr ⟨r, rfl, _, _, hform⟩
  have hlast : rs = [] → '\n' ∉ Source.unifyLineEnds c := by
    rintro rfl
    obtain ⟨-, heof⟩ | ⟨-, -, r, rs', hnil, -⟩ := hrs
    · rw [Source.unifyLineEnds_eq_self (hline heof).2]
      exact (hline heof).1
    · cases hnil
  have hback : rs = [] ∨ ∀ p ∈ s.tokens.back?, p.kind ≠ .indent ∧ p.kind ≠ .dedent := by
    obtain ⟨hnil, -⟩ | ⟨hne, rfl, -⟩ := hrs
    · exact .inl hnil
    · rw [← Array.getLast?_toList]
      exact .inr (hprev.resolve_left hne)
  have hblank : ∀ r ∈ rs.head?, r.form ≠ .blank := by
    intro r hr hform
    obtain rfl | ⟨r', hr', kind, lexeme, hr''⟩ := hcode
    · cases hr
    · cases hr.symm.trans hr'
      cases hform.symm.trans hr''
  obtain ⟨qs', ms, hsplit, hpadded, hms, hend⟩ :=
    Piece.exists_split_remark (hqs.symm ▸ happ) hfault hcode hc.unifyLineEnds hlast
  obtain ⟨hsame, hnone⟩ := alike_runAll_of_repadded hrun hs hblank hback hpadded hms hend
  rw [hqs] at hsplit
  unfold lex
  rw [hold, hnew, hsplit, happ]
  exact ⟨hnone, hsame.words⟩

/-- The first token of the second line of a block. -/
theorem words_lex_remark_line :
    let u := "if a\n    b\n    ".toList
    let v := "c\n".toList
    let c := "*x / y*".toList
    (lex 0 (u ++ remark c ++ v)).error = none ∧
      (lex 0 (u ++ remark c ++ v)).tokens.map Token.word =
        (lex 0 (u ++ v)).tokens.map Token.word := by
  intro u v c
  have ht : (lex 0 (u ++ v)).tokens = (lex 0 (u ++ v)).tokens.take 6 ++
      ⟨.identifier, "c", 3, 5, 15, 16⟩ :: (lex 0 (u ++ v)).tokens.drop 7 := by
    with_unfolding_all decide
  have hc : IsRemark c := by
    unfold IsRemark
    decide +kernel
  exact words_lex_remark (by decide +kernel) ht (by decide +kernel) (by decide) (by decide) rfl
    (.inr (by decide +kernel)) hc nofun

/-- In front of the first token after a block a comment can change the words: the line starts with
the comment now, and such a line closes no block. -/
theorem words_lex_remark_dedent :
    let u := "if x\n    a\n".toList
    let v := "b\n".toList
    (lex 0 (u ++ v)).error = none ∧ (lex 0 (u ++ remark ['c'] ++ v)).error = none ∧
      (lex 0 (u ++ remark ['c'] ++ v)).tokens.map Token.word ≠
        (lex 0 (u ++ v)).tokens.map Token.word := by
  with_unfolding_all decide

/-- A comment that ends with a slash opens another one, which is never closed. -/
example : (lex 0 ("a ".toList ++ remark ['/'] ++ "b".toList)).error =
    some ⟨.fault .openComment, 1, 4⟩ := by
  with_unfolding_all decide

end Token

end Pine
