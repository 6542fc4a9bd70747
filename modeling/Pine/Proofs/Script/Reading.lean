import Mathlib.Data.List.Forall2
import Pine.Proofs.Script.Brackets

/-!
# Reading the text of a script

Two things are read off the text of a script: its shape, which is the text without the content of
its literals, and its brackets. Both readings go over the text piece by piece, and of a piece they
ask the same: a fixed text is read with the brackets that it opens and closes, a string is escaped,
and a leaf leads nowhere. So the text of a script is taken apart once, next to the text of the
script without its strings, for every reading of this kind.
-/

namespace Pine

namespace Script

/-- A relation of two texts, from closing brackets that must still come to others, that holds of a
sequence of texts if it holds of its parts, of a text that leads from the ones to the others with
itself, of escaped strings, and of a text with the property `A` with itself. -/
structure Reading (A : String → Prop) where
  /-- Two texts are related. -/
  Rel : List Char → String → String → List Char → Prop
  seq {a b c : List Char} {s s' t t' : String} :
    Rel a s t b → Rel b s' t' c → Rel a (s ++ s') (t ++ t') c
  same {a b : List Char} {s : String} : Leads a s b → Rel a s s b
  literal (a : List Char) (s t : String) : Rel a (Text.escaped s) (Text.escaped t) a
  atom {a : List Char} {s : String} : A s → Rel a s s a

namespace Reading

variable {A : String → Prop} {R : Reading A} {a b c : List Char} {s s' t t' : String}

/-- Two texts that are related whatever closing brackets must still come. -/
def Even (R : Reading A) (s t : String) : Prop := ∀ a, R.Rel a s t a

namespace Rel

theorem append (h : R.Rel a s t b) (h' : R.Rel b s' t' c) : R.Rel a (s ++ s') (t ++ t') c :=
  R.seq h h'

/-- A fixed text. -/
theorem fixed (s : String) (h : Leads a s b) : R.Rel a s s b := R.same h

theorem put (h : R.Rel a s t b) (u : String) (hu : Leads b u c) : R.Rel a (s ++ u) (t ++ u) c :=
  R.seq h (R.same hu)

theorem quoted (s t : String) : R.Rel a (Text.escaped s) (Text.escaped t) a := R.literal a s t

theorem margin (depth : Nat) : R.Rel a (margin depth) (margin depth) a := R.same (.margin depth)

theorem line (depth : Nat) (h : R.Rel a s t b) :
    R.Rel a (Script.line depth s) (Script.line depth t) b :=
  ((margin depth).append h).append (.fixed "\n" rfl)

/-- A head that opens a block, what the block holds, and the end of the block. -/
theorem block (depth : Nat) (hhead : R.Rel a s t ('\x7d' :: a)) (hbody : R.Even s' t') :
    R.Rel a (Script.line depth s ++ s' ++ Script.line depth "\x7d")
      (Script.line depth t ++ t' ++ Script.line depth "\x7d") a :=
  ((Rel.line depth hhead).append (hbody _)).append (.line depth (.fixed "\x7d" rfl))

theorem toString (n : Nat) : R.Rel a (toString n) (toString n) a := R.same (.toString n)

theorem commas {ss ts : List String} (h : List.Forall₂ R.Even ss ts) :
    R.Rel a (commas ss) (commas ts) a := by
  induction h with
  | nil => exact .fixed "" rfl
  | cons h hs ih =>
    cases hs with
    | nil => exact h a
    | cons h' hs => exact ((h a).append (.fixed ", " rfl)).append ih

end Rel

/-- Texts of the same shape. -/
def shape : Reading QuoteFree where
  Rel _ s t _ := SameShape s t
  seq := .append
  same h := .refl_of_after (Nesting.scan_after h).symm
  literal _ := sameShape_escaped
  atom h := .refl_of_after (Scan.code_of_notMem h).1

/-- Texts of which the first leads from closing brackets to others. -/
def brackets : Reading Plain where
  Rel a s _ b := Leads a s b
  seq := .append
  same := id
  literal _ s _ := (nested_escaped s).leads
  atom h := h.nested.leads

end Reading

/-! ### Texts of scripts -/

section

open Reading

variable {A : String → Prop} {R : Reading A}

theorem Leaf.Spelled.reads {a : List Char} : {leaf : Leaf} → leaf.Spelled A →
    R.Rel a leaf.text leaf.text a
  | .binder _, h | .mention _, h => R.same (.identifier h)
  | .atom _, h => R.atom h

theorem reads_binders {a : List Char} {names : List String}
    (h : Spelled A (names.map .binder)) : R.Rel a (commas names) (commas names) a :=
  .commas (List.forall₂_same.2 fun _ hn _ => (h _ (List.mem_map_of_mem hn)).reads)

mutual

/-- The text of an expression is read like that of the expression without its strings. -/
theorem Expr.reads : (e : Expr) → Spelled A e.leaves → (d : Nat) →
    ∀ a, R.Rel a (e.text d) (e.hollow.text d) a
  | .atom _, h, _, _ | .name _, h, _, _ => (spelled_cons.1 h).1.reads
  | .literal _, _, _, _ => .quoted _ _
  | .member object _, h, d, _ => by
    obtain ⟨ho, hp⟩ := spelled_append.1 h
    exact ((object.reads ho d _).put "." rfl).append (spelled_cons.1 hp).1.reads
  | .call callee args, h, d, _ => by
    obtain ⟨hc, ha⟩ := spelled_append.1 h
    exact (((callee.reads hc d _).put "(" rfl).append
      (.commas (reads_exprTexts args ha d))).put ")" rfl
  | .history _ offset, h, d, _ => by
    obtain ⟨hn, ho⟩ := spelled_cons.1 h
    exact ((hn.reads.put "(" rfl).append (offset.reads ho d _)).put ")" rfl
  | .series key value, h, d, _ =>
    ((((Rel.fixed "_wrapSeries(ctx, " rfl).append (.quoted key "")).put ", " rfl).append
      (value.reads h d _)).put ")" rfl
  | .input id initial, h, d, _ =>
    ((((Rel.fixed "ctx.input(" rfl).append (.toString id)).put ", " rfl).append
      (initial.reads h d _)).put ")" rfl
  | .plot id value, h, d, _ =>
    ((((Rel.fixed "ctx.plot(" rfl).append (.toString id)).put ", " rfl).append
      (value.reads h d _)).put ")" rfl
  | .binary _ left right, h, d, _ => by
    obtain ⟨hop, h⟩ := spelled_cons.1 h
    obtain ⟨hl, hr⟩ := spelled_append.1 h
    exact ((((left.reads hl d _).put " " rfl).append hop.reads).put " " rfl).append
      (right.reads hr d _)
  | .unary _ operand, h, d, _ => by
    obtain ⟨hop, h⟩ := spelled_cons.1 h
    exact hop.reads.append (operand.reads h d _)
  | .ternary cond yes no, h, d, _ => by
    obtain ⟨h, hn⟩ := spelled_append.1 h
    obtain ⟨hc, hy⟩ := spelled_append.1 h
    exact ((((cond.reads hc d _).put " ? " rfl).append (yes.reads hy d _)).put " : " rfl).append
      (no.reads hn d _)
  | .paren inner, h, d, _ =>
    ((Rel.fixed "(" rfl).append (inner.reads h d _)).put ")" rfl
  | .array elements, h, d, _ =>
    ((Rel.fixed "[" rfl).append (.commas (reads_exprTexts elements h d))).put "]" rfl
  | .object properties, h, d, _ =>
    ((Rel.fixed "\x7b" rfl).append (.commas (reads_propertyTexts properties h d))).put "\x7d" rfl
  | .block body, h, d, _ =>
    (((Rel.fixed "(() => \x7b\n" rfl).append (reads_stmtsText body h (d + 1) _)).append
      (.margin d)).put "\x7d)()" rfl

theorem reads_exprTexts : (es : List Expr) → Spelled A (exprLeaves es) → (d : Nat) →
    List.Forall₂ R.Even (exprTexts d es) (exprTexts d (hollowExprs es))
  | [], _, _ => .nil
  | e :: es, h, d => by
    obtain ⟨he, hes⟩ := spelled_append.1 h
    exact .cons (e.reads he d) (reads_exprTexts es hes d)

theorem reads_propertyTexts : (ps : List Property) →
    Spelled A (propertyLeaves ps) → (d : Nat) →
    List.Forall₂ R.Even (propertyTexts d ps) (propertyTexts d (hollowProperties ps))
  | [], _, _ => .nil
  | .mk _ value :: ps, h, d => by
    obtain ⟨hn, h⟩ := spelled_cons.1 h
    obtain ⟨hv, hps⟩ := spelled_append.1 h
    exact .cons (fun _ => (hn.reads.put ": " rfl).append (value.reads hv d _))
      (reads_propertyTexts ps hps d)

/-- The text of a statement is read like that of the statement without its strings. -/
theorem Stmt.reads : (s : Stmt) → Spelled A s.leaves → (d : Nat) →
    ∀ a, R.Rel a (s.text d) (s.hollow.text d) a
  | .const _ value, h, d, _ => by
    obtain ⟨hn, hv⟩ := spelled_cons.1 h
    exact .line d <| ((((Rel.fixed "const " rfl).append hn.reads).put " = " rfl).append
      (value.reads hv d _)).put ";" rfl
  | .bind _ value, h, d, _ => by
    obtain ⟨hn, hv⟩ := spelled_cons.1 h
    exact .line d <| ((((Rel.fixed "let " rfl).append hn.reads).put " = " rfl).append
      (value.reads hv d _)).put ";" rfl
  | .bindAll _, h, d, _ =>
    .line d <| ((Rel.fixed "let " rfl).append (reads_binders h)).put ";" rfl
  | .bindTuple _ value, h, d, _ => by
    obtain ⟨hn, hv⟩ := spelled_append.1 h
    exact .line d <| ((((Rel.fixed "let [" rfl).append (reads_binders hn)).put "] = " rfl).append
      (value.reads hv d _)).put ";" rfl
  | .assignTuple _ value, h, d, _ => by
    obtain ⟨hn, hv⟩ := spelled_append.1 h
    exact .line d <| ((((Rel.fixed "[" rfl).append (reads_binders hn)).put "] = " rfl).append
      (value.reads hv d _)).put ";" rfl
  | .assign target _ value, h, d, _ => by
    obtain ⟨hop, h⟩ := spelled_cons.1 h
    obtain ⟨ht, hv⟩ := spelled_append.1 h
    exact .line d <| (((((target.reads ht d _).put " " rfl).append hop.reads).put " " rfl).append
      (value.reads hv d _)).put ";" rfl
  | .importLib _ path, h, d, _ =>
    .line d <| ((((Rel.fixed "const " rfl).append
      (spelled_cons.1 h).1.reads).put " = _import(ctx, " rfl).append (.quoted path "")).put ");" rfl
  | .cell _ key, h, d, _ =>
    .line d <| ((((Rel.fixed "const " rfl).append
      (spelled_cons.1 h).1.reads).put " = ctx.newSeries(" rfl).append
      (.quoted key key)).put ");" rfl
  | .carry _, h, d, _ => by
    have hc := (spelled_cons.1 h).1
    exact .line d <| ((hc.reads.put ".set(" rfl).append hc.reads).put ".get(1) || null);" rfl
  | .restore _ _ initial, h, d, _ => by
    obtain ⟨hn, h⟩ := spelled_cons.1 h
    obtain ⟨hc, hi⟩ := spelled_cons.1 h
    exact .line d <| ((((((Rel.fixed "let " rfl).append hn.reads).put " = (" rfl).append
      hc.reads).put ".get(0) ?? [" rfl).append (initial.reads hi d _)).put "])[0];" rfl
  | .store _ _, h, d, _ => by
    obtain ⟨hc, h⟩ := spelled_cons.1 h
    exact .line d <| ((hc.reads.put ".set([" rfl).append (spelled_cons.1 h).1.reads).put "]);" rfl
  | .series _ key, h, d, _ =>
    .line d <| ((((Rel.fixed "const " rfl).append
      (spelled_cons.1 h).1.reads).put " = ctx.newSeries(" rfl).append
      (.quoted key key)).put ");" rfl
  | .record _, h, d, _ => by
    obtain ⟨hs, h⟩ := spelled_cons.1 h
    exact .line d <| ((hs.reads.put ".set(" rfl).append (spelled_cons.1 h).1.reads).put ");" rfl
  | .accessor _, h, d, _ => by
    obtain ⟨hh, h⟩ := spelled_cons.1 h
    obtain ⟨-, h⟩ := spelled_cons.1 h
    obtain ⟨hn, h⟩ := spelled_cons.1 h
    exact .line d <| ((((((Rel.fixed "function " rfl).append
      hh.reads).put "(offset) \x7b return offset === 0 ? " rfl).append
      hn.reads).put " : " rfl).append (spelled_cons.1 h).1.reads).put ".get(offset); \x7d" rfl
  | .expr value, h, d, _ => .line d <| (value.reads h d _).put ";" rfl
  | .ret value, h, d, _ =>
    .line d <| ((Rel.fixed "return " rfl).append (value.reads h d _)).put ";" rfl
  | .retVoid, _, d, _ => .line d (.fixed "return;" rfl)
  | .brk, _, d, _ => .line d (.fixed "break;" rfl)
  | .cont, _, d, _ => .line d (.fixed "continue;" rfl)
  | .function _ _ body, h, d, _ => by
    obtain ⟨hn, h⟩ := spelled_cons.1 h
    obtain ⟨hp, hb⟩ := spelled_append.1 h
    exact .block d (((((Rel.fixed "function " rfl).append hn.reads).put "(" rfl).append
      (reads_binders hp)).put ") \x7b" rfl)
      (reads_stmtsText body hb (d + 1))
  | .shim _ _ _, h, d, _ => by
    obtain ⟨hc, h⟩ := spelled_cons.1 h
    obtain ⟨hm, h⟩ := spelled_cons.1 h
    obtain ⟨-, h⟩ := spelled_cons.1 h
    exact .line d <| ((((hc.reads.put ".prototype." rfl).append
      hm.reads).put " = function (...args) \x7b return " rfl).append
      (spelled_cons.1 h).1.reads).put "(this, ...args); \x7d;" rfl
  | .ifElse cond yes otherwise, h, d, _ => by
    obtain ⟨h, ho⟩ := spelled_append.1 h
    obtain ⟨hc, hy⟩ := spelled_append.1 h
    exact ((Rel.line d <| ((Rel.fixed "if (" rfl).append
      (cond.reads hc d _)).put ") \x7b" rfl).append (reads_stmtsText yes hy (d + 1) _)).append
      (otherwise.reads ho d _)
  | .block body, h, d, _ => .block d (.fixed "\x7b" rfl) (reads_stmtsText body h (d + 1))
  | .counter _, h, d, _ =>
    .line d <| ((Rel.fixed "let " rfl).append (spelled_cons.1 h).1.reads).put " = 0;" rfl
  | .guard _ limit, h, d, _ =>
    .line d <| ((((((Rel.fixed "if (++" rfl).append
      (spelled_cons.1 h).1.reads).put " > " rfl).append
      (.toString limit)).put ") throw new Error(" rfl).append (.quoted _ _)).put ");" rfl
  | .whileLoop cond body, h, d, _ => by
    obtain ⟨hc, hb⟩ := spelled_append.1 h
    exact .block d (((Rel.fixed "while (" rfl).append
      (cond.reads hc d _)).put ") \x7b" rfl) (reads_stmtsText body hb (d + 1))
  | .forStep _ first _ last _ step body, h, d, a => by
    obtain ⟨hn, h⟩ := spelled_cons.1 h
    obtain ⟨ht, h⟩ := spelled_cons.1 h
    obtain ⟨hu, h⟩ := spelled_cons.1 h
    obtain ⟨h, hb⟩ := spelled_append.1 h
    obtain ⟨h, hs⟩ := spelled_append.1 h
    obtain ⟨hf, hl⟩ := spelled_append.1 h
    have hinit : R.Rel a _ _ _ := (((Rel.fixed "for (let " rfl).append
      hn.reads).put " = " rfl).append (first.reads hf d _)
    have htest := ((((hinit.put "; " rfl).append hn.reads).put " " rfl).append
      ht.reads).put " " rfl |>.append (last.reads hl d _)
    have hupdate := ((((htest.put "; " rfl).append hn.reads).put " " rfl).append
      hu.reads).put " " rfl |>.append (step.reads hs d _)
    exact .block d (hupdate.put ") \x7b" rfl) (reads_stmtsText body hb (d + 1))
  | .forEither _ _ first last body, h, d, a => by
    obtain ⟨hn, h⟩ := spelled_cons.1 h
    obtain ⟨hd, h⟩ := spelled_cons.1 h
    obtain ⟨h, hb⟩ := spelled_append.1 h
    obtain ⟨hf, hl⟩ := spelled_append.1 h
    have hinit : R.Rel a _ _ _ := (((Rel.fixed "for (let " rfl).append
      hn.reads).put " = " rfl).append (first.reads hf d _)
    have hdirection := (((((hinit.put ", " rfl).append hd.reads).put " = " rfl).append
      hn.reads).put " <= " rfl).append (last.reads hl d _)
    have hup := (((((hdirection.put " ? 1 : -1; " rfl).append hd.reads).put " > 0 ? " rfl).append
      hn.reads).put " <= " rfl).append (last.reads hl d _)
    have hdown := (((hup.put " : " rfl).append hn.reads).put " >= " rfl).append (last.reads hl d _)
    have hupdate := (((hdown.put "; " rfl).append hn.reads).put " += " rfl).append hd.reads
    exact .block d (hupdate.put ") \x7b" rfl) (reads_stmtsText body hb (d + 1))
  | .forOf _ collection body, h, d, _ => by
    obtain ⟨hn, h⟩ := spelled_cons.1 h
    obtain ⟨hc, hb⟩ := spelled_append.1 h
    exact .block d (((((Rel.fixed "for (const " rfl).append hn.reads).put " of " rfl).append
      (collection.reads hc d _)).put ") \x7b" rfl) (reads_stmtsText body hb (d + 1))
  | .forEntries _ _ collection body, h, d, _ => by
    obtain ⟨hi, h⟩ := spelled_cons.1 h
    obtain ⟨hn, h⟩ := spelled_cons.1 h
    obtain ⟨hc, hb⟩ := spelled_append.1 h
    exact .block d (((((((Rel.fixed "for (const [" rfl).append hi.reads).put ", " rfl).append
      hn.reads).put "] of (" rfl).append
      (collection.reads hc d _)).put ").entries()) \x7b" rfl) (reads_stmtsText body hb (d + 1))
  | .switch subject cases, h, d, _ => by
    obtain ⟨hs, hc⟩ := spelled_append.1 h
    exact .block d (((Rel.fixed "switch (" rfl).append
      (subject.reads hs d _)).put ") \x7b" rfl) (reads_casesText cases hc (d + 1))
  | .classDecl _ slots, h, d, a => by
    obtain ⟨hn, h⟩ := spelled_cons.1 h
    obtain ⟨-, hs⟩ := spelled_cons.1 h
    have hhead : R.Rel a _ _ _ := Rel.line d <|
      ((Rel.fixed "class " rfl).append hn.reads).put " \x7b" rfl
    have hconstructor := hhead.append <| .line (d + 1) <|
      ((Rel.fixed "constructor(" rfl).append
        (.commas (reads_slotTexts slots hs d))).put ") \x7b" rfl
    have hset := (hconstructor.append (reads_settersText slots hs (d + 2) _)).append
      (.line (d + 1) (.fixed "\x7d" rfl))
    have hnew := (hset.append (.line (d + 1) (.fixed "static new(...args) \x7b" rfl))).append <|
      .line (d + 2) <| ((Rel.fixed "return new " rfl).append hn.reads).put "(...args);" rfl
    exact (hnew.append (.line (d + 1) (.fixed "\x7d" rfl))).append (.line d (.fixed "\x7d" rfl))

theorem reads_stmtsText : (ss : List Stmt) → Spelled A (stmtLeaves ss) → (d : Nat) →
    ∀ a, R.Rel a (stmtsText d ss) (stmtsText d (hollowStmts ss)) a
  | [], _, _, _ => .fixed "" rfl
  | s :: ss, h, d, _ => by
    obtain ⟨hs, hss⟩ := spelled_append.1 h
    exact (s.reads hs d _).append (reads_stmtsText ss hss d _)

/-- What follows a block of a choice closes that block. -/
theorem Otherwise.reads : (o : Otherwise) → Spelled A o.leaves → (d : Nat) →
    ∀ a, R.Rel ('\x7d' :: a) (o.text d) (o.hollow.text d) a
  | .nothing, _, d, _ => .line d (.fixed "\x7d" rfl)
  | .block body, h, d, a => by
    have hhead : R.Rel ('\x7d' :: a) _ _ _ := .line d (.fixed "\x7d else \x7b" rfl)
    exact (hhead.append (reads_stmtsText body h (d + 1) _)).append (.line d (.fixed "\x7d" rfl))
  | .elseIf cond body otherwise, h, d, a => by
    obtain ⟨h, ho⟩ := spelled_append.1 h
    obtain ⟨hc, hb⟩ := spelled_append.1 h
    have hhead : R.Rel ('\x7d' :: a) _ _ _ := .fixed "\x7d else if (" rfl
    exact ((Rel.line d <| (hhead.append (cond.reads hc d _)).put ") \x7b" rfl).append
      (reads_stmtsText body hb (d + 1) _)).append (otherwise.reads ho d _)

theorem reads_casesText : (cases : List Case) → Spelled A (caseLeaves cases) →
    (d : Nat) →
    ∀ a, R.Rel a (casesText d cases) (casesText d (hollowCases cases)) a
  | [], _, _, _ => .fixed "" rfl
  | .test value body :: cases, h, d, _ => by
    obtain ⟨h, hcases⟩ := spelled_append.1 h
    obtain ⟨hv, hb⟩ := spelled_append.1 h
    exact ((((Rel.line d <| ((Rel.fixed "case " rfl).append
      (value.reads hv d _)).put ": \x7b" rfl).append (reads_stmtsText body hb (d + 1) _)).append
      (.line (d + 1) (.fixed "break;" rfl))).append (.line d (.fixed "\x7d" rfl))).append
      (reads_casesText cases hcases d _)
  | .default body :: cases, h, d, _ => by
    obtain ⟨hb, hcases⟩ := spelled_append.1 h
    exact ((((Rel.line d (.fixed "default: \x7b" rfl)).append
      (reads_stmtsText body hb (d + 1) _)).append (.line (d + 1) (.fixed "break;" rfl))).append
      (.line d (.fixed "\x7d" rfl))).append (reads_casesText cases hcases d _)

theorem reads_slotTexts : (slots : List Slot) → Spelled A (slotLeaves slots) →
    (d : Nat) → List.Forall₂ R.Even (slotTexts d slots) (slotTexts d (hollowSlots slots))
  | [], _, _ => .nil
  | .mk _ _ initial :: slots, h, d => by
    obtain ⟨hp, h⟩ := spelled_cons.1 h
    obtain ⟨-, h⟩ := spelled_cons.1 h
    obtain ⟨hi, hs⟩ := spelled_append.1 h
    exact .cons (fun _ => (hp.reads.put " = " rfl).append (initial.reads hi d _))
      (reads_slotTexts slots hs d)

theorem reads_settersText : (slots : List Slot) → Spelled A (slotLeaves slots) →
    (d : Nat) →
    ∀ a, R.Rel a (settersText d slots) (settersText d (hollowSlots slots)) a
  | [], _, _, _ => .fixed "" rfl
  | .mk _ _ _ :: slots, h, d, _ => by
    obtain ⟨hp, h⟩ := spelled_cons.1 h
    obtain ⟨hm, h⟩ := spelled_cons.1 h
    exact (Rel.line d <| ((((Rel.fixed "this." rfl).append hm.reads).put " = " rfl).append
      hp.reads).put ";" rfl).append (reads_settersText slots (spelled_append.1 h).2 d _)

end

end

/-! ### Whole scripts -/

/-- Only whether there is a title shows in a heading. -/
theorem reads_heading {A : String → Prop} {R : Reading A} (version : Nat) {title title' : String}
    (h : title = "" ↔ title' = "") {a : List Char} :
    R.Rel a (heading version title) (heading version title') a := by
  have hversion : R.Rel a (if version = 0 then "" else " v" ++ toString version)
      (if version = 0 then "" else " v" ++ toString version) a := by
    split
    · exact .fixed "" rfl
    · exact (Reading.Rel.fixed " v" rfl).append (.toString version)
  refine ((Reading.Rel.fixed "// Generated by pinejs from Pine Script" rfl).append hversion).append
    ?_
  by_cases ht : title = ""
  · rw [if_pos ht, if_pos (h.1 ht)]
    exact .fixed "" rfl
  · rw [if_neg ht, if_neg (mt h.2 ht)]
    exact (Reading.Rel.fixed ": " rfl).append (.quoted title title')

/-- The line of the entry function ends outside of literals, whatever the name of the function. -/
theorem sameShape_entry (name : String) : SameShape
    (line 0 ("function " ++ name ++ "(ctx) \x7b"))
    (line 0 ("function " ++ name ++ "(ctx) \x7b")) := by
  refine .refl_of_after ?_
  have hline : (line 0 ("function " ++ name ++ "(ctx) \x7b")).toList =
      ("function " ++ name ++ "(ctx) ").toList ++ ['\x7b', '\n'] := by
    simp [line, Script.margin]
  rw [hline, Scan.after_append, Scan.after_brace]

/-- **The shape of a script does not depend on its strings.** Two scripts of one version and entry
function have texts of the same shape if their bodies agree up to their strings, neither body holds
a quote outside of strings, and both have a title or both have none. -/
theorem eraseLiterals_text {s s' : Script} (hversion : s.version = s'.version)
    (htitle : s.title = "" ↔ s'.title = "") (hname : s.functionName = s'.functionName)
    (hbody : hollowStmts s.body = hollowStmts s'.body)
    (h : Spelled QuoteFree (stmtLeaves s.body)) (h' : Spelled QuoteFree (stmtLeaves s'.body)) :
    eraseLiterals s.text = eraseLiterals s'.text := by
  have hread {ss : List Stmt} (h : Spelled QuoteFree (stmtLeaves ss)) :
      SameShape (stmtsText 1 ss) (stmtsText 1 (hollowStmts ss)) :=
    reads_stmtsText (R := .shape) ss h 1 []
  have hstmts : SameShape (stmtsText 1 s.body) (stmtsText 1 s'.body) :=
    (hread h).trans (hbody ▸ (hread h').symm)
  have hfirst : SameShape (line 0 "\"use strict\";") (line 0 "\"use strict\";") :=
    .refl_of_after (by decide)
  have hheading : SameShape (line 0 (heading s.version s.title))
      (line 0 (heading s.version s'.title)) :=
    Reading.Rel.line (R := .shape) (a := []) 0 (reads_heading s.version htitle)
  unfold Script.text
  rw [← hversion, ← hname]
  exact ((((hfirst.append hheading).append (sameShape_entry s.functionName)).append hstmts).append
    (.refl_of_after (by decide))).eraseLiterals

/-- **The text of a script is nested** if its names are identifiers and all else that stands in it
as it is, is plain. -/
theorem nested_text {s : Script} (h : Spelled Plain s.leaves) : Nested s.text := by
  obtain ⟨hname, h⟩ := spelled_cons.1 h
  have hheading : Leads [] (heading s.version s.title) [] :=
    reads_heading (R := .brackets) s.version Iff.rfl
  have hbody : Leads ['\x7d'] (stmtsText 1 s.body) ['\x7d'] :=
    reads_stmtsText (R := .brackets) s.body (spelled_cons.1 h).2 1 _
  have hstart := (Leads.line 0 (.fixed "\"use strict\";" [] rfl)).append (.line 0 hheading)
  have hhead := hstart.append <| .line 0 <|
    ((Leads.flat "function " rfl).append (.identifier hname)).append
      (.fixed "(ctx) \x7b" ['\x7d'] rfl)
  exact (hhead.append hbody).append (.line 0 (.fixed "\x7d" [] rfl))

end Script

end Pine
