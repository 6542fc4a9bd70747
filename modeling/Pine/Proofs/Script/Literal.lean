import Mathlib.Algebra.Group.Nat.Defs
import Mathlib.Data.List.Basic
import Pine.Proofs.Script.Shape
import Pine.Proofs.Token.Lexeme

/-!
# Reading escaped strings back

An escaped string has two readers. A script that holds it is read by the rules of strict code for
double-quoted literals, and the value of a literal is a row of code units of sixteen bits. A source
that holds it is cut into tokens. Both give back the string that was escaped, and both stop at the
closing quote, whatever comes behind it.

## Main results

* `Text.escapedChar_cases`: the three ways to write a character.
* `Script.Literal.rest?_escapedChar`, `Piece.stringRest_escapedChar`: each reader reads one escaped
  character back.
* `Text.escaped_read_back`: both readers read an escaped string back.
-/

namespace Pine

open List

/-! ### Hexadecimal digits -/

namespace Text

theorem length_hexDigits (width n : Nat) : (hexDigits width n).length = width := by
  induction width generalizing n with
  | zero => rfl
  | succ width ih => rw [hexDigits, length_append, ih, length_singleton]

theorem exists_digitChar_of_mem_hexDigits {width n : Nat} {d : Char} (h : d ∈ hexDigits width n) :
    ∃ k < 16, d = Nat.digitChar k := by
  induction width generalizing n with
  | zero => cases h
  | succ width ih =>
    rcases mem_append.1 h with h | h
    · exact ih h
    · exact ⟨n % 16, Nat.mod_lt n (by decide), mem_singleton.1 h⟩

end Text

theorem Piece.hexValue?_digitChar : ∀ k < 16, hexValue? (Nat.digitChar k) = some k := by decide

/-! ### Escaped characters -/

namespace Text

/-- The letters of the escapes without a number, each with what it stands for. -/
def letterEscapes : List (Char × Char) :=
  [('"', '"'), ('\\', '\\'), ('n', '\n'), ('r', '\r'), ('t', '\t'), ('b', '\x08'), ('f', '\x0c')]

/-- A character that stands for itself in an escaped string. -/
structure IsRaw (c : Char) : Prop where
  ne_quote : c ≠ '"'
  ne_backslash : c ≠ '\\'
  le_toNat : 0x20 ≤ c.toNat
  guarded : isGuarded c = false

/-- **The three ways to write a character** of a string: by a letter, by its code, or as it is. -/
theorem escapedChar_cases (c : Char) :
    (∃ d, (d, c) ∈ letterEscapes ∧ escapedChar c = ['\\', d]) ∨
      (c.toNat < 0x10000 ∧ escapedChar c = codeEscape c) ∨
      (IsRaw c ∧ escapedChar c = [c]) := by
  by_cases hletter : ∃ d, (d, c) ∈ letterEscapes
  · obtain ⟨d, hd⟩ := hletter
    refine .inl ⟨d, hd, ?_⟩
    simp only [letterEscapes, List.mem_cons, Prod.mk.injEq, List.not_mem_nil, or_false] at hd
    rcases hd with ⟨rfl, rfl⟩ | ⟨rfl, rfl⟩ | ⟨rfl, rfl⟩ | ⟨rfl, rfl⟩ | ⟨rfl, rfl⟩ | ⟨rfl, rfl⟩ |
      ⟨rfl, rfl⟩ <;> rfl
  · have hne (d e : Char) (h : (d, e) ∈ letterEscapes) : c ≠ e := by
      rintro rfl
      exact hletter ⟨d, h⟩
    have hquote := hne '"' '"' (by decide)
    have hbackslash := hne '\\' '\\' (by decide)
    unfold escapedChar
    rw [if_neg (by simp [hquote, hbackslash]), if_neg (hne 'n' '\n' (by decide)),
      if_neg (hne 'r' '\r' (by decide)), if_neg (hne 't' '\t' (by decide)),
      if_neg (hne 'b' '\x08' (by decide)), if_neg (hne 'f' '\x0c' (by decide))]
    split
    · next h =>
      refine .inr (.inl ⟨?_, rfl⟩)
      simp only [isGuarded, Bool.or_eq_true, decide_eq_true_eq] at h
      rcases h with h | (((rfl | rfl) | rfl) | rfl) | rfl
      · omega
      all_goals decide
    · next h =>
      rw [Bool.or_eq_true, decide_eq_true_eq, not_or, Bool.not_eq_true] at h
      exact .inr (.inr ⟨⟨hquote, hbackslash, Nat.le_of_not_lt h.1, h.2⟩, rfl⟩)

/-- The characters that may stand in an escaped string as they are. -/
def isPlain (c : Char) : Bool := 0x20 ≤ c.toNat && !isGuarded c

theorem isPlain_of_mem_escapedChar {c d : Char} (hd : d ∈ escapedChar c) : isPlain d = true := by
  obtain ⟨e, he, hc⟩ | ⟨-, hc⟩ | ⟨hraw, hc⟩ := escapedChar_cases c
  · have hall : ∀ p ∈ letterEscapes, ['\\', p.1].all isPlain = true := by decide
    rw [hc] at hd
    exact List.all_eq_true.1 (hall _ he) d hd
  · rw [hc, codeEscape] at hd
    rcases List.mem_append.1 hd with hd | hd
    · exact List.all_eq_true.1 (by decide : ['\\', 'u'].all isPlain = true) d hd
    · obtain ⟨k, hk, rfl⟩ := exists_digitChar_of_mem_hexDigits hd
      exact (by decide : ∀ k < 16, isPlain (Nat.digitChar k) = true) k hk
  · rw [hc, List.mem_singleton] at hd
    rw [hd, isPlain, hraw.guarded, decide_eq_true hraw.le_toNat]
    rfl

theorem toList_escaped (s : String) :
    (escaped s).toList = '"' :: (s.toList.flatMap escapedChar ++ ['"']) := String.toList_ofList

/-- **An escaped string has no control characters, no line separators and no markup.** -/
theorem isPlain_of_mem_escaped {s : String} {d : Char} (hd : d ∈ (escaped s).toList) :
    isPlain d = true := by
  rw [toList_escaped, List.mem_cons, List.mem_append, List.mem_singleton] at hd
  rcases hd with rfl | hd | rfl
  · rfl
  · obtain ⟨c, -, hd⟩ := List.mem_flatMap.1 hd
    exact isPlain_of_mem_escapedChar hd
  · rfl

end Text

/-! ### Literals of a script -/

namespace Script.Literal

/-- A code point in one or two code units. -/
def units (n : Nat) : List Nat :=
  if n < 0x10000 then [n]
  else [0xD800 + (n - 0x10000) / 0x400, 0xDC00 + (n - 0x10000) % 0x400]

/-- The characters that code units stand for. A surrogate without its partner stands for none. -/
def decode? : List Nat → Option (List Char)
  | [] => some []
  | u :: us =>
    if 0xD800 ≤ u ∧ u < 0xE000 then
      match us with
      | [] => none
      | v :: vs =>
        if u < 0xDC00 ∧ 0xDC00 ≤ v ∧ v < 0xE000 then
          (decode? vs).map (Char.ofNat (0x10000 + (u - 0xD800) * 0x400 + (v - 0xDC00)) :: ·)
        else none
    else (decode? us).map (Char.ofNat u :: ·)

/-- The number that hexadecimal digits write. -/
def hexNumber? (ds : List Char) : Option Nat :=
  ds.foldlM (fun n d => (Piece.hexValue? d).map (16 * n + ·)) 0

/-- The code written by the given number of digits at the head of a text. -/
def fixedCode? (count : Nat) (cs : List Char) : Option Nat :=
  if count ≤ cs.length then hexNumber? (cs.take count) else none

/-- The code point written by the digits in front of a closing brace, and their number. -/
def bracedCode? (cs : List Char) : Option (Nat × Nat) :=
  let digits := cs.takeWhile Piece.isHex
  if digits.isEmpty || (cs.drop digits.length).head? ≠ some '\x7d' then none
  else ((hexNumber? digits).filter (· ≤ 0x10FFFF)).map ((·, digits.length))

/-- The letters that stand for another character behind a backslash. -/
def escaped (c : Char) : Char :=
  match c with
  | 'b' => '\x08'
  | 't' => '\t'
  | 'n' => '\n'
  | 'v' => '\x0b'
  | 'f' => '\x0c'
  | 'r' => '\r'
  | c => c

/-- The code units of the text after a backslash, and the number of its characters. A line end
stands for nothing. A digit is only allowed as a zero without another digit behind it. -/
def escape? : List Char → Option (List Nat × Nat)
  | [] => none
  | c :: cs =>
    if isLineEnd c then some ([], if c = '\r' && cs.head? = some '\n' then 2 else 1)
    else if c = 'x' then (fixedCode? 2 cs).map fun n => ([n], 3)
    else if c = 'u' then
      if cs.head? = some '\x7b' then (bracedCode? cs.tail).map fun r => (units r.1, r.2 + 3)
      else (fixedCode? 4 cs).map fun n => ([n], 5)
    else if Piece.isDigit c then
      if c = '0' && !cs.head?.any Piece.isDigit then some ([0], 1) else none
    else some (units (escaped c).toNat, 1)

/-- The rest of a literal: its code units, and the text behind the closing quote. -/
def rest? : List Char → Option (List Nat × List Char)
  | [] => none
  | c :: cs =>
    if c = '"' then some ([], cs)
    else if c = '\n' || c = '\r' then none
    else if c = '\\' then
      match escape? cs with
      | none => none
      | some (us, width) => (rest? (cs.drop width)).map fun r => (us ++ r.1, r.2)
    else (rest? cs).map fun r => (units c.toNat ++ r.1, r.2)
termination_by cs => cs.length
decreasing_by all_goals simp only [length_drop, length_cons]; omega

/-- The value of the literal at the head of a text, and the text behind it. -/
def read? (cs : List Char) : Option (List Nat × List Char) :=
  if cs.head? = some '"' then rest? cs.tail else none

example : read? "\"\\u\x7b1F600\x7d\\x41\\0\" + 1".toList =
    some ([0xD83D, 0xDE00, 0x41, 0], " + 1".toList) := by decide_cbv

/-! ### Code units -/

/-- A character is decoded from its code units. -/
theorem decode?_units (c : Char) (us : List Nat) :
    decode? (units c.toNat ++ us) = (decode? us).map (c :: ·) := by
  have hvalid : c.toNat < 0xD800 ∨ 0xDFFF < c.toNat ∧ c.toNat < 0x110000 := c.valid
  unfold units
  split
  · rw [singleton_append, decode?.eq_def]
    dsimp only
    rw [if_neg (by omega), Char.ofNat_toNat]
  · have hcode : 0x10000 + (0xD800 + (c.toNat - 0x10000) / 0x400 - 0xD800) * 0x400 +
        (0xDC00 + (c.toNat - 0x10000) % 0x400 - 0xDC00) = c.toNat := by omega
    rw [cons_append, singleton_append, decode?, if_pos (by omega), if_pos (by omega), hcode,
      Char.ofNat_toNat]

theorem decode?_flatMap_units (cs : List Char) :
    decode? (cs.flatMap fun c => units c.toNat) = some cs := by
  induction cs with
  | nil => rfl
  | cons c cs ih => rw [flatMap_cons, decode?_units, ih, Option.map_some]

/-! ### Escapes in a script -/

theorem hexNumber?_hexDigits (width n : Nat) :
    hexNumber? (Text.hexDigits width n) = some (n % 16 ^ width) := by
  induction width generalizing n with
  | zero => rw [Nat.pow_zero, Nat.mod_one]; rfl
  | succ width ih =>
    have hlast := Piece.hexValue?_digitChar (n % 16) (Nat.mod_lt n (by decide))
    have hmod : n % 16 ^ (width + 1) = 16 * (n / 16 % 16 ^ width) + n % 16 := by
      rw [Nat.pow_succ', Nat.mod_mul, Nat.add_comm]
    unfold hexNumber? at ih ⊢
    rw [Text.hexDigits, foldlM_append, ih (n / 16), hmod]
    simp only [foldlM_cons, hlast, Option.map_some, foldlM_nil, Option.pure_def,
      Option.bind_eq_bind, Option.bind_fun_some, Option.bind_some]

theorem escape?_letter {d c : Char} (h : (d, c) ∈ Text.letterEscapes) (cs : List Char) :
    escape? (d :: cs) = some (units c.toNat, 1) := by
  simp only [Text.letterEscapes, mem_cons, Prod.mk.injEq, not_mem_nil, or_false] at h
  rcases h with ⟨rfl, rfl⟩ | ⟨rfl, rfl⟩ | ⟨rfl, rfl⟩ | ⟨rfl, rfl⟩ | ⟨rfl, rfl⟩ | ⟨rfl, rfl⟩ |
    ⟨rfl, rfl⟩ <;> rfl

theorem escape?_code {n : Nat} (h : n < 0x10000) (cs : List Char) :
    escape? ('u' :: (Text.hexDigits 4 n ++ cs)) = some (units n, 5) := by
  have hlength := Text.length_hexDigits 4 n
  have hbrace : (Text.hexDigits 4 n ++ cs).head? ≠ some '\x7b' := by
    intro hhead
    have hmem : '\x7b' ∈ Text.hexDigits 4 n := by
      rw [head?_append_of_ne_nil _ (ne_nil_of_length_pos (by omega))] at hhead
      exact mem_of_mem_head? hhead
    obtain ⟨k, hk, hdigit⟩ := Text.exists_digitChar_of_mem_hexDigits hmem
    exact (by decide : ∀ k < 16, '\x7b' ≠ Nat.digitChar k) k hk hdigit
  have hcode : fixedCode? 4 (Text.hexDigits 4 n ++ cs) = some n := by
    rw [fixedCode?, if_pos (by simp [hlength]), take_left' hlength, hexNumber?_hexDigits,
      Nat.mod_eq_of_lt (by omega)]
  rw [escape?, if_neg (by decide), if_neg (by decide), if_pos rfl, if_neg hbrace, hcode, units,
    if_pos h]
  rfl

/-- **A script reads an escaped character back.** -/
theorem rest?_escapedChar (c : Char) (cs : List Char) :
    rest? (Text.escapedChar c ++ cs) = (rest? cs).map fun r => (units c.toNat ++ r.1, r.2) := by
  have hescape {us : List Nat} {ds : List Char} {width : Nat} (h : escape? ds = some (us, width)) :
      rest? ('\\' :: ds) = (rest? (ds.drop width)).map fun r => (us ++ r.1, r.2) := by
    rw [rest?, if_neg (by decide), if_neg (by decide), if_pos rfl, h]
  obtain ⟨d, hd, hc⟩ | ⟨hlt, hc⟩ | ⟨hraw, hc⟩ := Text.escapedChar_cases c
  · rw [hc]
    exact hescape (escape?_letter hd cs)
  · have hdrop : ('u' :: (Text.hexDigits 4 c.toNat ++ cs)).drop 5 = cs :=
      drop_left' (Text.length_hexDigits 4 c.toNat)
    rw [hc, Text.codeEscape, append_assoc]
    refine (hescape (escape?_code hlt cs)).trans ?_
    rw [hdrop]
  · have hne (d : Char) (hd : d.toNat < 0x20) : c ≠ d := by
      rintro rfl
      exact absurd hraw.le_toNat (Nat.not_le_of_lt hd)
    rw [hc, singleton_append, rest?, if_neg hraw.ne_quote,
      if_neg (by simp [hne '\n' (by decide), hne '\r' (by decide)]), if_neg hraw.ne_backslash]

theorem rest?_flatMap_escapedChar (cs rest : List Char) :
    rest? (cs.flatMap Text.escapedChar ++ '"' :: rest) =
      some (cs.flatMap fun c => units c.toNat, rest) := by
  induction cs with
  | nil =>
    rw [List.flatMap_nil, List.nil_append, rest?, if_pos rfl]
    rfl
  | cons c cs ih =>
    rw [List.flatMap_cons, List.append_assoc, rest?_escapedChar, ih, List.flatMap_cons]
    rfl

end Script.Literal

/-! ### Strings of a source -/

namespace Piece

theorem escape_letter {d c : Char} (h : (d, c) ∈ Text.letterEscapes) (cs : List Char) :
    escape (d :: cs) = some (some c, 1) := by
  simp only [Text.letterEscapes, List.mem_cons, Prod.mk.injEq, List.not_mem_nil, or_false] at h
  rcases h with ⟨rfl, rfl⟩ | ⟨rfl, rfl⟩ | ⟨rfl, rfl⟩ | ⟨rfl, rfl⟩ | ⟨rfl, rfl⟩ | ⟨rfl, rfl⟩ |
    ⟨rfl, rfl⟩ <;> rfl

theorem scalar_toNat (c : Char) : scalar c.toNat = c := by
  have hvalid : c.toNat < 0xD800 ∨ 0xDFFF < c.toNat ∧ c.toNat < 0x110000 := c.valid
  rw [scalar, if_neg (by omega), Char.ofNat_toNat]

theorem escape_code {c : Char} (h : c.toNat < 0x10000) (cs : List Char) :
    escape ('u' :: (Text.hexDigits 4 c.toNat ++ cs)) = some (some c, 5) := by
  have hdigit (n : Nat) := hexValue?_digitChar (n % 16) (Nat.mod_lt n (by decide))
  have hcode : code4? (Nat.digitChar (c.toNat / 16 / 16 / 16 % 16))
      (Nat.digitChar (c.toNat / 16 / 16 % 16)) (Nat.digitChar (c.toNat / 16 % 16))
      (Nat.digitChar (c.toNat % 16)) = some c.toNat := by
    simp only [code4?, code2?, hdigit, Option.pure_def, Option.bind_eq_bind, Option.bind_some,
      Option.some.injEq]
    omega
  simp only [Text.hexDigits, List.nil_append, List.cons_append]
  rw [escape, if_neg (by decide), if_neg (by decide), if_pos rfl]
  dsimp only
  rw [hcode]
  dsimp only
  rw [scalar_toNat]

/-- **A source reads an escaped character back.** -/
theorem stringRest_escapedChar (c : Char) (cs : List Char) :
    stringRest '"' (Text.escapedChar c ++ cs) = (stringRest '"' cs).map fun r =>
      (c :: r.1, r.2 + (Text.escapedChar c).length) := by
  have hescape {ds : List Char} {width : Nat} (h : escape ds = some (some c, width)) :
      stringRest '"' ('\\' :: ds) = (stringRest '"' (ds.drop width)).map fun r =>
        (c :: r.1, r.2 + width + 1) := by
    rw [stringRest, if_neg (by decide), if_neg (by decide), if_pos rfl, h]
    rfl
  obtain ⟨d, hd, hc⟩ | ⟨hlt, hc⟩ | ⟨hraw, hc⟩ := Text.escapedChar_cases c
  · rw [hc]
    exact hescape (escape_letter hd cs)
  · have hdrop : ('u' :: (Text.hexDigits 4 c.toNat ++ cs)).drop 5 = cs :=
      List.drop_left' (Text.length_hexDigits 4 c.toNat)
    have hlength : (Text.codeEscape c).length = 5 + 1 := by
      rw [Text.codeEscape, List.length_append, Text.length_hexDigits]
      rfl
    rw [hc, hlength, Text.codeEscape, List.append_assoc]
    refine (hescape (escape_code hlt cs)).trans ?_
    rw [hdrop]
  · have hline : c ≠ '\n' := by
      rintro rfl
      exact absurd hraw.le_toNat (by decide)
    rw [hc, List.singleton_append, stringRest, if_neg hraw.ne_quote, if_neg hline,
      if_neg hraw.ne_backslash]
    rfl

theorem stringRest_flatMap_escapedChar (cs ds : List Char) :
    stringRest '"' (cs.flatMap Text.escapedChar ++ '"' :: ds) =
      some (cs, (cs.flatMap Text.escapedChar).length + 1) := by
  induction cs with
  | nil =>
    rw [List.flatMap_nil, List.nil_append, stringRest, if_pos rfl]
    rfl
  | cons c cs ih =>
    rw [List.flatMap_cons, List.append_assoc, stringRest_escapedChar, ih, Option.map_some,
      List.length_append, Nat.add_right_comm, Nat.add_comm (Text.escapedChar c).length]

/-- **An escaped string is cut into one token.** -/
theorem split_escaped (s : String) :
    split (Text.escaped s).toList = [⟨.token .string s, (Text.escaped s).toList⟩] := by
  have hrest := stringRest_flatMap_escapedChar s.toList []
  have hlength : (s.toList.flatMap Text.escapedChar ++ ['"']).length =
      (s.toList.flatMap Text.escapedChar).length + 1 := length_append
  rw [Text.toList_escaped, split, classify_quote hrest]
  dsimp only
  rw [← hlength, take_length, drop_length, split, String.ofList_toList]

end Piece

theorem Token.lex_escaped (s : String) :
    (Token.lex 0 (Text.escaped s).toList).error = none ∧
      (Token.lex 0 (Text.escaped s).toList).tokens.map Token.word =
        [(.string, s), (.newline, "\n"), (.eof, "")] := by
  have hhead : (Text.escaped s).toList.head? ≠ some Source.mark := by
    rw [Text.toList_escaped, head?_cons]
    decide
  have hcr : '\r' ∉ (Text.escaped s).toList :=
    fun hmem => absurd (Text.isPlain_of_mem_escaped hmem) (by decide)
  rw [Token.lex, Source.normalize_eq_self hhead hcr, Piece.split_escaped]
  exact ⟨rfl, rfl⟩

/-- **An escaped string is read back.** In a script, a literal is read from it up to the closing
quote, with any text behind it, and the value of the literal is the string. In between stand no
control characters, no line separators and none of the characters `<`, `>` and `&`. In a source, it
is one token, and the lexeme of the token is the string. -/
theorem Text.escaped_read_back (s : String) (rest : List Char) :
    (∃ us, Script.Literal.read? ((Text.escaped s).toList ++ rest) = some (us, rest) ∧
      Script.Literal.decode? us = some s.toList) ∧
    (∀ c ∈ (Text.escaped s).toList, 0x20 ≤ c.toNat ∧ c ∉ ['\u2028', '\u2029', '<', '>', '&']) ∧
    (Token.lex 0 (Text.escaped s).toList).error = none ∧
    (Token.lex 0 (Text.escaped s).toList).tokens.map Token.word =
      [(.string, s), (.newline, "\n"), (.eof, "")] := by
  refine ⟨⟨_, ?_, Script.Literal.decode?_flatMap_units s.toList⟩, fun c hc => ?_,
    Token.lex_escaped s⟩
  · rw [Text.toList_escaped, cons_append, append_assoc]
    exact Script.Literal.rest?_flatMap_escapedChar s.toList rest
  · have hplain := Text.isPlain_of_mem_escaped hc
    rw [Text.isPlain, Bool.and_eq_true, decide_eq_true_eq, Bool.not_eq_true'] at hplain
    simp only [Text.isGuarded, Bool.or_eq_false_iff, decide_eq_false_iff_not] at hplain
    simp [hplain]

end Pine
