import Pine.Proofs.Script.Shape

/-!
# Brackets of a script

A text is read for its brackets outside of double-quoted literals. What is kept while reading are
the closing brackets that must still come, innermost first. A closing bracket that is not the one
to come, and a literal that is cut off by the end of its line, stop the reading.

The text of a statement is not nested piece by piece: a head opens a block that a later line closes.
So the pieces are described by where they lead, from closing brackets still to come to others, and
a piece leads the same way whatever must come outside of it.
-/

namespace Pine

open List

namespace Script

/-! ### Reading brackets -/

/-- The bracket that closes what a character opens. -/
def closer? (c : Char) : Option Char :=
  if c = '(' then some ')'
  else if c = '[' then some ']'
  else if c = '\x7b' then some '\x7d'
  else none

/-- Whether a character closes a bracket. -/
def isCloser (c : Char) : Bool := c = ')' || c = ']' || c = '\x7d'

/-- How far a reading of brackets has come. -/
structure Nesting where
  /-- Where the reading stands. -/
  scan : Scan
  /-- The closing brackets that must still come, innermost first. -/
  pending : List Char
  deriving DecidableEq, Repr

namespace Nesting

/-- The reading after one more character. -/
def next (n : Nesting) (c : Char) : Option Nesting :=
  match n.scan with
  | .code =>
    match closer? c with
    | some close => some { n with pending := close :: n.pending }
    | none =>
      if isCloser c then
        if n.pending.head? = some c then some { n with pending := n.pending.tail } else none
      else some { n with scan := Scan.code.next c }
  | scan => if isLineEnd c then none else some { n with scan := scan.next c }

/-- The reading after a text. -/
def after (n : Nesting) : List Char → Option Nesting
  | [] => some n
  | c :: cs => (n.next c).bind (after · cs)

/-- The reading inside of further brackets. -/
def within (n : Nesting) (outer : List Char) : Nesting := { n with pending := n.pending ++ outer }

theorem after_append : (n : Nesting) → (cs ds : List Char) →
    n.after (cs ++ ds) = (n.after cs).bind (after · ds)
  | _, [], _ => rfl
  | n, c :: cs, ds => by
    simp only [cons_append, after]
    cases n.next c with
    | none => rfl
    | some n' => exact after_append n' cs ds

theorem next_within {n n' : Nesting} {c : Char} (h : n.next c = some n') (outer : List Char) :
    (n.within outer).next c = some (n'.within outer) := by
  obtain ⟨scan, pending⟩ := n
  cases scan with
  | code =>
    simp only [next, within] at h ⊢
    cases hclose : closer? c with
    | some close =>
      rw [hclose] at h
      cases h
      rfl
    | none =>
      simp only [hclose] at h ⊢
      split at h
      · next hc =>
        -- only a bracket that is to come can be taken, and it stays the first one to come
        cases pending with
        | nil => cases h
        | cons expected rest =>
          simp only [head?_cons, Option.some.injEq, tail_cons] at h
          split at h
          · next he =>
            cases h
            simp [hc, he]
          · cases h
      · next hc =>
        cases h
        simp [hc]
  | literal | escape =>
    simp only [next, within] at h ⊢
    split at h
    · cases h
    · next hc =>
      cases h
      simp [hc]

theorem after_within : {n n' : Nesting} → {cs : List Char} → n.after cs = some n' →
    (outer : List Char) → (n.within outer).after cs = some (n'.within outer)
  | n, n', [], h, outer => by
    cases h
    rfl
  | n, n', c :: cs, h, outer => by
    obtain ⟨m, hm, h⟩ := Option.bind_eq_some_iff.1 h
    rw [after, next_within hm outer]
    exact after_within h outer

/-- Brackets do not change where literals start and end. -/
theorem scan_after : {n n' : Nesting} → {cs : List Char} → n.after cs = some n' →
    n'.scan = n.scan.after cs
  | n, n', [], h => by
    cases h
    rfl
  | n, n', c :: cs, h => by
    obtain ⟨m, hm, h⟩ := Option.bind_eq_some_iff.1 h
    have hnext : m.scan = n.scan.next c := by
      obtain ⟨scan, pending⟩ := n
      cases scan with
      | code =>
        by_cases hq : c = '"'
        · subst hq
          cases hm
          rfl
        · rw [Scan.next_code hq]
          simp only [next, Scan.next_code hq] at hm
          repeat' split at hm
          all_goals cases hm
          all_goals rfl
      | literal | escape =>
        simp only [next] at hm
        split at hm
        all_goals cases hm
        rfl
    rw [scan_after h, hnext]
    rfl

/-- Brackets inside of a literal do not count. -/
theorem after_of_kept {scan : Scan} {cs : List Char} (pending : List Char) (hs : scan ≠ .code)
    (hk : scan.kept cs = []) (hl : ∀ c ∈ cs, isLineEnd c = false) :
    after ⟨scan, pending⟩ cs = some ⟨scan.after cs, pending⟩ := by
  induction cs generalizing scan with
  | nil => rfl
  | cons c cs ih =>
    obtain ⟨hc, hcs⟩ := List.forall_mem_cons.1 hl
    have hkeeps : scan.keeps c = false := by
      cases h : scan.keeps c with
      | false => rfl
      | true => simp [Scan.kept, h] at hk
    have hnext : scan.next c ≠ .code := by
      cases scan with
      | code => exact absurd rfl hs
      | literal =>
        simp only [Scan.keeps] at hkeeps
        simp only [Scan.next, hkeeps, if_false, Bool.false_eq_true]
        split <;> simp
      | escape => simp [Scan.next]
    have hstep : next ⟨scan, pending⟩ c = some ⟨scan.next c, pending⟩ := by
      cases scan with
      | code => exact absurd rfl hs
      | literal | escape => simp [next, hc]
    simp only [Scan.kept, hkeeps, if_false, Bool.false_eq_true] at hk
    rw [after, hstep]
    exact ih hnext hk hcs

end Nesting

/-! ### Where a text leads -/

/-- Whether a class of characters is met by none of a list is decided on the list. -/
theorem eq_false_of_all {p : Char → Bool} {cs : List Char} (h : cs.all (!p ·) = true) :
    ∀ c ∈ cs, p c = false := by
  intro c hc
  rw [← Bool.not_eq_true']
  exact List.all_eq_true.1 h c hc

/-- A text outside of literals leads from closing brackets that must come to others. -/
def Leads (before : List Char) (s : String) (after : List Char) : Prop :=
  Nesting.after ⟨.code, before⟩ s.toList = some ⟨.code, after⟩

/-- Outside of double-quoted literals every bracket is closed by its own kind, in order, and no
literal is cut off. -/
def Nested (s : String) : Prop := Leads [] s []

instance (s : String) : Decidable (Nested s) :=
  inferInstanceAs (Decidable (Nesting.after ⟨.code, []⟩ s.toList = some ⟨.code, []⟩))

namespace Leads

variable {before between after : List Char} {s t : String}

theorem append (h : Leads before s between) (h' : Leads between t after) :
    Leads before (s ++ t) after := by
  rw [Leads, String.toList_append, Nesting.after_append, h]
  exact h'

/-- **A text leads the same way inside of further brackets.** -/
theorem within (h : Leads before s after) (outer : List Char) :
    Leads (before ++ outer) s (after ++ outer) := Nesting.after_within h outer

/-- A fixed text. -/
theorem fixed (s : String) (after : List Char)
    (h : Nesting.after ⟨.code, before⟩ s.toList = some ⟨.code, after⟩) : Leads before s after := h

/-- The characters that matter for the reading of brackets. -/
def delimiters : List Char := ['"', '(', ')', '[', ']', '\x7b', '\x7d']

/-- A text without such characters leads nowhere. -/
theorem of_notMem (h : ∀ c ∈ s.toList, c ∉ delimiters) : Leads before s before := by
  rw [Leads]
  generalize s.toList = cs at h
  induction cs with
  | nil => rfl
  | cons c cs ih =>
    obtain ⟨hc, hcs⟩ := forall_mem_cons.1 h
    simp only [delimiters, mem_cons, not_mem_nil, or_false, not_or] at hc
    have hnext : Nesting.next ⟨.code, before⟩ c = some ⟨.code, before⟩ := by
      simp [Nesting.next, closer?, isCloser, Scan.next, hc]
    rw [Nesting.after, hnext]
    exact ih hcs

/-- A text whose characters all belong to a class without delimiters. -/
theorem of_forall_mem {p : Char → Bool} (hp : delimiters.all (!p ·) = true)
    (h : ∀ c ∈ s.toList, p c = true) : Leads before s before :=
  of_notMem fun c hc hd => Bool.false_ne_true ((eq_false_of_all hp c hd).symm.trans (h c hc))

/-- A fixed text without delimiters. -/
theorem flat (s : String) (h : s.toList.all (!delimiters.contains ·) = true) :
    Leads before s before :=
  of_forall_mem (by decide) (all_eq_true.1 h)

theorem margin (depth : Nat) : Leads before (margin depth) before := by
  refine of_forall_mem (p := (· = ' ')) (by decide) fun c hc => ?_
  rw [Script.margin, String.toList_ofList] at hc
  exact decide_eq_true (eq_of_mem_replicate hc)

theorem line (depth : Nat) (h : Leads before s after) : Leads before (line depth s) after :=
  ((margin depth).append h).append (flat "\n" rfl)

theorem toString (n : Nat) : Leads before (toString n) before :=
  of_forall_mem (by decide) fun _ => isIdentifierPart_of_mem_toString n

theorem identifier (h : isIdentifier s = true) : Leads before s before :=
  of_forall_mem (by decide) fun _ => isIdentifierPart_of_mem h

end Leads

theorem Nested.leads {s : String} (h : Nested s) {before : List Char} : Leads before s before :=
  Leads.within h before

/-! ### Escaped strings -/

/-- The escape of a character ends no line. -/
theorem isLineEnd_of_mem_escapedChar (c : Char) :
    ∀ d ∈ Text.escapedChar c, isLineEnd d = false := by
  unfold Text.escapedChar
  split
  · next h =>
    simp only [Bool.or_eq_true, decide_eq_true_eq] at h
    rcases h with rfl | rfl <;> exact eq_false_of_all (by decide)
  iterate 5
    split
    · exact eq_false_of_all (by decide)
  split
  · rw [Text.codeEscape]
    exact forall_mem_append.2
      ⟨eq_false_of_all (by decide), fun d hd => (mem_hexDigits 4 c.toNat d hd).2.1⟩
  · next hn hr _ _ _ hguard =>
    simp only [Text.isGuarded, Bool.or_eq_true, decide_eq_true_eq, not_or] at hguard
    simp [isLineEnd, hn, hr, hguard.2]

/-- An escaped string is nested, whatever it holds. -/
theorem nested_escaped (s : String) : Nested (Text.escaped s) := by
  obtain ⟨hafter, hkept⟩ := literal_flatMap_escapedChar s.toList
  have hends : ∀ d ∈ s.toList.flatMap Text.escapedChar, isLineEnd d = false := by
    intro d hd
    obtain ⟨c, -, hd⟩ := mem_flatMap.1 hd
    exact isLineEnd_of_mem_escapedChar c d hd
  have hinner := Nesting.after_of_kept [] (by decide) hkept hends
  rw [Nested, Leads, Text.escaped, String.toList_ofList, Nesting.after_append]
  change (Nesting.after ⟨.literal, []⟩ _).bind _ = _
  rw [hinner, hafter]
  rfl

/-! ### Plain texts -/

/-- A nested text without quotes. -/
structure Plain (s : String) : Prop where
  quoteFree : QuoteFree s
  nested : Nested s

instance (s : String) : Decidable (Plain s) :=
  decidable_of_iff (QuoteFree s ∧ Nested s) ⟨fun h => ⟨h.1, h.2⟩, fun h => ⟨h.1, h.2⟩⟩

theorem Plain.append {s t : String} (hs : Plain s) (ht : Plain t) : Plain (s ++ t) where
  quoteFree := by
    rw [QuoteFree, String.toList_append, mem_append, not_or]
    exact ⟨hs.quoteFree, ht.quoteFree⟩
  nested := Leads.append hs.nested ht.nested

theorem plain_of_isIdentifier {s : String} (h : isIdentifier s = true) : Plain s :=
  ⟨quote_notMem_of_isIdentifier h, Leads.identifier h⟩

theorem plain_numberText (spelling : String) : Plain (numberText spelling) :=
  ⟨quoteFree_numberText spelling, Leads.of_forall_mem (by decide) isNumeric_of_mem_numberText⟩

end Script

end Pine
