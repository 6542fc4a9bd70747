import Pine.Proofs.Grammar.State
import Pine.Proofs.Grammar.Spans

/-!
# What the grammar yields

Every tree that the grammar yields is complete: an absent part stands only where the language lets
it be absent, operators are those of the language, and assignments have targets. From well-spelled
tokens it is also well-named. Every name of a tree is the lexeme of an identifier or a keyword, with
two exceptions: a positional argument has the empty name, and the local name of a library that is
imported without one is a part of its path, which need not be a word. The tokens of every rule have
matching brackets and anchor the chains of its result.

All this is proved rule by rule against rules for the parts, and then for the closed grammar by
induction on the bound on passages.
-/

namespace Pine

open List

/-! ### Operators -/

theorem BinaryOp.ofSpelling_mem_known {op : BinaryOp} (h : op ∈ BinaryOp.known) :
    BinaryOp.ofSpelling op.spelling ∈ BinaryOp.known := by
  unfold BinaryOp.ofSpelling
  cases hf : BinaryOp.known.find? (·.spelling = op.spelling) with
  | none =>
    have hne := find?_eq_none.1 hf op h
    simp at hne
  | some op' => exact mem_of_find?_eq_some hf

theorem AssignOp.ofSpelling_mem_known {s : String}
    (h : s ∈ [":=", "+=", "-=", "*=", "/=", "%="]) : AssignOp.ofSpelling s ∈ AssignOp.known := by
  have hall : ([":=", "+=", "-=", "*=", "/=", "%="].all fun s =>
      decide (AssignOp.ofSpelling s ∈ AssignOp.known)) = true := by decide
  exact of_decide_eq_true (all_eq_true.1 hall s h)

/-- The three spellings in front of an operand are operators of the language. -/
theorem UnaryOp.isKnown_ofSpelling {s : String} (h : s ∈ ["not", "-", "+"]) :
    (UnaryOp.ofSpelling s).IsKnown := by
  simp only [mem_cons, not_mem_nil, or_false] at h
  rcases h with rfl | rfl | rfl
  all_goals exact trivial

theorem Token.isText_of_isOp {t : Token} {s : String} (h : t.isOp s = true) :
    t.kind.isText = true := by
  rw [(isOp_iff.1 h).1]
  rfl

namespace Grammar

open Pine.Parser

/-! ### Types and typed names -/

/-- A word of a type is an identifier, unless a path, type arguments or the mark of an array make
it something else. -/
def IsTypeWord (word : String) : Prop :=
  (word.toList.any fun c => c = '.' || c = '<' || c = '[') = true ∨ Script.isNameShaped word = true

/-- A word that holds a mark is no name. -/
theorem isTypeWord_of_mem {word : String} {c : Char} (h : c ∈ word.toList)
    (hc : (c = '.' || c = '<' || c = '[') = true) : IsTypeWord word :=
  .inl (any_eq_true.2 ⟨c, h, hc⟩)

theorem dotted_yields : (n : Nat) → (word : String) →
    (dotted n word).Yields false fun w => IsTypeWord word → IsTypeWord w
  | 0, _, c => follows_pure ⟨fun _ h => h, .refl c⟩
  | n + 1, word, c => by
    refine follows_peek (follows_peekNext ?_)
    split
    · next h =>
      simp only [Bool.and_eq_true, decide_eq_true_eq] at h
      obtain ⟨hdot, hname⟩ := h
      rw [← Cursor.peek_advance (by simp [hdot])] at hname
      have h₁ := (Cursor.reads_advance_kind hdot).trans (Cursor.reads_advance_kind hname)
      refine follows_advance (follows_advance ((dotted_yields n _ _).mono ?_))
      rintro w c' ⟨hw, hr⟩
      refine ⟨fun hs _ => hw (h₁.spelled hs) ?_, (h₁.trans hr).weaken⟩
      exact isTypeWord_of_mem (c := '.') (by simp) rfl
    · exact follows_pure ⟨fun _ h => h, .refl c⟩

mutual

theorem typeArgs_yields : (n : Nat) → (typeArgs n).Yields true fun _ => True
  | 0, _ => follows_unexpected
  | n + 1, c => by
    refine (follows_expectOp "<" c).bind fun _ c₁ ⟨_, h₁⟩ => ?_
    refine (types_yields n c₁).bind fun _ c₂ ⟨_, h₂⟩ => ?_
    refine (follows_expectOp ">" c₂).bind fun _ c₃ ⟨_, h₃⟩ => ?_
    exact follows_pure ⟨fun _ => trivial, h₁.trans (h₂.trans h₃)⟩

theorem types_yields : (n : Nat) → (types n).Yields true fun _ => True
  | 0, _ => follows_unexpected
  | n + 1, c => by
    refine (follows_identifier c).bind fun t c₁ ⟨_, h₁⟩ => ?_
    refine (dotted_yields n t.lexeme c₁).bind fun name c₂ ⟨_, h₂⟩ => ?_
    refine follows_peek ?_
    extract_lets later
    -- what follows the name does not depend on whether it has arguments of its own
    have hlater (name : String) (c' : Cursor) (h : c.Reads true 0 0 c') :
        Follows (later name) c' fun _ c'' => (c.Spelled → True) ∧ c.Reads true 0 0 c'' := by
      refine follows_peek ?_
      split
      · next hk =>
        refine follows_advance ((types_yields n _).bind fun _ c'' ⟨_, hr⟩ => ?_)
        exact follows_pure ⟨fun _ => trivial, h.trans ((Cursor.reads_advance_kind hk).trans hr)⟩
      · exact follows_pure ⟨fun _ => trivial, h⟩
    split
    · refine (typeArgs_yields n c₂).bind fun _ c₃ ⟨_, h₃⟩ => ?_
      exact hlater _ c₃ (h₁.trans (h₂.trans h₃))
    · exact hlater _ c₂ (h₁.trans h₂)

end

theorem callTypeArgs_yields (fuel : Nat) : (callTypeArgs fuel).Yields true fun _ => True := by
  intro c
  refine (typeArgs_yields fuel c).bind fun _ c₁ h₁ => follows_peek ?_
  split
  · exact follows_pure h₁
  · exact follows_fail _

theorem typeWord_yields (fuel : Nat) : (typeWord fuel).Yields true IsTypeWord := by
  intro c
  refine (follows_identifier c).bind fun t c₁ ⟨ht, h₁⟩ => ?_
  refine (dotted_yields fuel t.lexeme c₁).bind fun word c₂ ⟨hw, h₂⟩ => follows_peek ?_
  extract_lets later
  have hlater (word : String) (c' : Cursor) (hw : c.Spelled → IsTypeWord word)
      (h : c.Reads true 0 0 c') : Follows (later word) c' fun w c'' =>
        (c.Spelled → IsTypeWord w) ∧ c.Reads true 0 0 c'' := by
    refine follows_peek (follows_peekNext ?_)
    split
    · next hk =>
      simp only [Bool.and_eq_true, decide_eq_true_eq] at hk
      obtain ⟨hopen, hclose⟩ := hk
      rw [← Cursor.peek_advance (by simp [hopen])] at hclose
      have hempty : c'.Reads true 0 0 c'.advance.advance :=
        (Cursor.reads_advance_kind hopen).within (.refl _) (Cursor.reads_advance_kind hclose)
      refine follows_advance (follows_advance (follows_pure ⟨fun _ => ?_, h.trans hempty⟩))
      exact isTypeWord_of_mem (c := '[') (by simp) rfl
    · exact follows_pure ⟨hw, h⟩
  split
  · refine (typeArgs_yields fuel c₂).bind fun _ c₃ ⟨_, h₃⟩ => ?_
    refine hlater _ c₃ (fun _ => ?_) (h₁.trans (h₂.trans h₃))
    exact isTypeWord_of_mem (c := '<') (by simp [angled]) rfl
  · exact hlater _ c₂ (fun hs => hw (h₁.spelled hs) (.inr (ht hs))) (h₁.trans h₂)

theorem typeWords_yields (fuel : Nat) : (n : Nat) →
    (typeWords fuel n).Yields true fun t => IsTypeWord t.name
  | 0, _ => follows_unexpected
  | n + 1, c => by
    refine (typeWord_yields fuel c).bind fun word c₁ ⟨hw, h₁⟩ => follows_peek ?_
    split
    · refine (typeWords_yields fuel n c₁).bind fun others c₂ ⟨ho, h₂⟩ => ?_
      exact follows_pure ⟨fun hs => ho (h₁.spelled hs), h₁.trans h₂⟩
    · exact follows_pure ⟨hw, h₁⟩

/-- The last word of a typed name has no mark, so it is an identifier. -/
theorem typedName_yields (fuel : Nat) :
    (typedName fuel).Yields true fun t => Script.isNameShaped t.name = true := by
  intro c
  refine (typeWords_yields fuel fuel c).bind fun t c₁ ⟨ht, h₁⟩ => ?_
  split
  · exact follows_peek (follows_fail _)
  · next hmark => exact follows_pure ⟨fun hs => (ht hs).resolve_left hmark, h₁⟩

/-! ### Heads of declarations -/

/-- The names that a declaration with a head binds are identifiers. -/
def DeclHead.Named (head : DeclHead) : Prop :=
  ∀ n ∈ Stmt.declared head.name head.names, Script.isNameShaped n = true

/-- The names of the head of a function are identifiers. -/
def FuncHead.Named (head : FuncHead) : Prop :=
  Script.isNameShaped head.name = true ∧ ∀ p ∈ head.params, Script.isNameShaped p.name = true

theorem declHead_yields (fuel : Nat) (typed : Bool) :
    (declHead fuel typed).Yields true DeclHead.Named := by
  intro c
  refine follows_of_start (follows_peek ((typedName_yields fuel c).bind fun t c₁ ⟨ht, h₁⟩ => ?_))
  split
  · exact follows_failAt _ _
  · refine (follows_expectOp "=" c₁).bind fun _ c₂ ⟨_, h₂⟩ => ?_
    refine follows_pure ⟨fun hs n hn => ?_, h₁.trans h₂⟩
    rw [mem_singleton.1 hn]
    exact ht hs

theorem names_yields : (n : Nat) →
    (names n).Yields true fun ns => ns ≠ [] ∧ ∀ n ∈ ns, Script.isNameShaped n = true
  | 0, _ => follows_unexpected
  | n + 1, c => by
    refine (follows_identifier c).bind fun t c₁ ⟨ht, h₁⟩ => follows_peek ?_
    split
    · next hk =>
      have h₁ := h₁.trans (Cursor.reads_advance_kind hk)
      refine follows_advance ((names_yields n _).bind fun _ c₂ ⟨ho, h₂⟩ => ?_)
      refine follows_pure ⟨fun hs => ⟨by simp, ?_⟩, h₁.trans h₂⟩
      exact forall_mem_cons.2 ⟨ht hs, (ho (h₁.spelled hs)).2⟩
    · exact follows_pure ⟨fun hs => ⟨by simp, by simpa using ht hs⟩, h₁⟩

theorem tupleHead_yields (fuel : Nat) : (tupleHead fuel).Yields true DeclHead.Named := by
  intro c
  refine (follows_expect .lbracket c).bind fun _ c₁ ⟨_, h₁⟩ => ?_
  refine (names_yields fuel c₁).bind fun _ c₂ ⟨hn, h₂⟩ => ?_
  refine (follows_expect .rbracket c₂).bind fun _ c₃ ⟨_, h₃⟩ => ?_
  refine (follows_expectOp "=" c₃).bind fun _ c₄ ⟨_, h₄⟩ => ?_
  refine follows_pure ⟨fun hs n hmem => ?_, (h₁.within h₂ h₃).trans h₄⟩
  obtain ⟨hne, hnames⟩ := hn (h₁.spelled hs)
  rw [Stmt.declared, if_neg (by simpa using hne)] at hmem
  exact hnames n hmem

theorem importPath_yields : (n : Nat) → (importPath n).Yields false fun _ => True
  | 0, c => follows_pure ⟨fun _ => trivial, .refl c⟩
  | n + 1, c => by
    refine follows_atLineEnd fun _ => follows_peek ?_
    split
    · exact follows_pure ⟨fun _ => trivial, .refl c⟩
    · refine follows_of_start (follows_advance ?_)
      split
      · next hk =>
        have hread : c.Reads true 0 0 c.advance := by
          simp only [Bool.or_eq_true, decide_eq_true_eq] at hk
          rcases hk with (hk | hk) | hop
          · exact Cursor.reads_advance_kind hk
          · exact Cursor.reads_advance_kind hk
          · exact reads_advance_op hop
        refine (importPath_yields n _).bind fun _ c₁ ⟨_, h₁⟩ => ?_
        exact follows_pure ⟨fun _ => trivial, (hread.trans h₁).weaken⟩
      · exact follows_failAt _ _

/-! ### Counting loops -/

theorem countingLoop_complete (pos namePos : Pos) (counter : String) {first last step : Expr}
    {body : List Stmt} (hf : first.Complete anyKey) (hl : last.Complete anyKey)
    (hs : step.isMissing = true ∨ step.Complete anyKey) (hb : CompleteStmts anyKey body) :
    (countingLoop pos namePos counter first last step body).Complete anyKey := by
  refine ⟨⟨trivial, trivial, ?_⟩, ⟨hf, by simp⟩, ⟨trivial, hl⟩, ?_, hb⟩
  all_goals split
  · exact trivial
  · split <;> exact trivial
  · next hm => exact ⟨trivial, trivial, hs.resolve_left (by simpa using hm)⟩
  · split <;> exact ⟨trivial, trivial, trivial⟩

/-- The parts that a counting loop makes up for itself have no links. -/
theorem links_countingLoop (pos namePos : Pos) (counter : String) (first last step : Expr)
    (body : List Stmt) : links (countingLoop pos namePos counter first last step body).nodes =
      links (first.nodes ++ last.nodes ++ step.nodes ++ walkStmts (fun _ => .parts) body) := by
  have hforCount (test : Expr) (update : Stmt) (eitherWay : Bool) :
      links (Stmt.nodes (.forCount pos counter (.decl namePos 0 counter [] "" "" first) test update
        body eitherWay)) = links first.nodes ++ links test.nodes ++ links update.nodes ++
          links (walkStmts (fun _ => .parts) body) := by
    change links (_ ++ _ ++ _ ++ _) = _
    rw [links_append, links_append, links_append]
    rfl
  have hupdate (down : Bool) : links (Stmt.nodes
      (if !step.isMissing then .assign namePos (.name namePos counter) .add step
      else if down then .assign namePos (.name namePos counter) .sub (.number namePos "1")
      else .assign namePos (.name namePos counter) .add (.number namePos "1"))) =
        links step.nodes := by
    cases step <;> cases down <;> rfl
  unfold countingLoop
  rw [hforCount, hupdate, links_append, links_append, links_append]
  rfl

/-- The parts that a counting loop makes up for itself are well-named. -/
theorem countingLoop_spans (pos namePos : Pos) {counter : String} {first last step : Expr}
    {body : List Stmt} {c c' : Cursor} {moved : Bool}
    (hn : c.Spelled → Script.isNameShaped counter = true)
    (h : c.Spans moved c' [] (first.nodes ++ last.nodes ++ step.nodes ++
      walkStmts (fun _ => .parts) body)) :
    c.Spans moved c' [] (countingLoop pos namePos counter first last step body).nodes := by
  have hlinks := links_countingLoop pos namePos counter first last step body
  refine ⟨h.reads, fun hs => ?_, hlinks ▸ h.aligned, hlinks ▸ h.count_le⟩
  have hall := h.named hs
  simp only [each_append] at hall
  obtain ⟨⟨⟨hf, hl⟩, hstep⟩, hb⟩ := hall
  have hname := hn hs
  have htarget : (Expr.name namePos counter).Named IsLocalName := each_cons.2 ⟨hname, each_nil⟩
  have hassign {op : AssignOp} (hop : op ∈ AssignOp.known) {value : Expr}
      (hv : value.Named IsLocalName) :
      (Stmt.assign namePos (.name namePos counter) op value).Named IsLocalName :=
    each_listed.2 ⟨hop, each_append.2 ⟨htarget, hv⟩⟩
  have hone : (Expr.number namePos "1").Named IsLocalName := each_cons.2 ⟨trivial, each_nil⟩
  refine each_listed.2 ⟨hname, each_append.2 ⟨each_append.2 ⟨each_append.2 ⟨?_, ?_⟩, ?_⟩, hb⟩⟩
  · exact each_listed.2 ⟨by simpa [Node.Named, Stmt.declared] using hname, hf⟩
  · refine each_listed.2 ⟨?_, each_append.2 ⟨htarget, hl⟩⟩
    change (if _ then BinaryOp.ge else BinaryOp.le) ∈ BinaryOp.known
    split <;> decide
  · split
    · exact hassign (by decide) hstep
    · split
      · exact hassign (by decide) hone
      · exact hassign (by decide) hone

/-! ### Rules for the parts -/

/-- The rules for the parts yield complete trees, whose nodes are held by the tokens. -/
structure Rules.Sound (r : Rules) : Prop where
  expr : ∀ d, (r.expr d).GrowsExpr
  stmt : ∀ d, (r.stmt d).Grows true (fun _ => Stmt.Complete anyKey) Stmt.nodes

namespace Rules

variable {r : Rules} (hr : r.Sound) (d : Nesting)

/-! ### Lists of expressions -/

/-- The name of an argument, if it has one, is a word. -/
def IsArgName (a : Arg) : Prop := a.name = "" ∨ Script.isNameShaped a.name = true

include hr

theorem arg_grows : (r.arg d).Grows true
    (fun c a => a.value.Complete anyKey ∧ (c.Spelled → IsArgName a)) fun a => a.value.nodes := by
  intro c
  refine follows_peek (follows_peekNext ?_)
  split
  · next h =>
    simp only [Bool.and_eq_true, Bool.or_eq_true, decide_eq_true_eq] at h
    obtain ⟨hname, hop⟩ := h
    have hread := Cursor.reads_advance_word hname
    rw [← Cursor.peek_advance (by rcases hname with hk | hk <;> simp [hk])] at hop
    refine follows_advance (follows_advance ((hr.expr d _).bind fun e c₁ ⟨he, h₁⟩ => ?_))
    exact follows_pure ⟨⟨he, fun hs => .inr (hs.peek hname)⟩,
      .after (hread.trans (reads_advance_op hop)) h₁.drop⟩
  · exact (hr.expr d c).bind fun e c₁ ⟨he, h₁⟩ => follows_pure ⟨⟨he, fun _ => .inl rfl⟩, h₁.drop⟩

section Lists

variable {α : Type} {item : Parser α} {K : Cursor → α → Prop} {ns : α → List Node}
  (hK : ∀ {c c₁ : Cursor} {a : α}, c.Precedes c₁ → K c₁ a → K c a) (h : item.Grows true K ns)

omit hr

include hK h

theorem items_grows (close : Token.Kind) (n : Nat) : (items close item n).Grows false
    (fun c as => ∀ a ∈ as, K c a) fun as => as.flatMap ns := by
  induction n with
  | zero => exact fun c => follows_pure ⟨nofun, (Cursor.Reads.refl c).spans⟩
  | succ n ih =>
    intro c
    refine follows_peek ?_
    split
    · exact follows_pure ⟨nofun, (Cursor.Reads.refl c).spans⟩
    · refine (h c).bind fun a c₁ ⟨ha, h₁⟩ => follows_peek ?_
      split
      · next hk =>
        have h₁ := h₁.before (Cursor.reads_advance_kind hk)
        refine follows_advance ((ih _).bind fun as c₂ ⟨has, h₂⟩ => ?_)
        refine follows_pure ⟨forall_mem_cons.2 ⟨ha, fun b hb => ?_⟩, (h₁.trans h₂).weaken⟩
        exact hK h₁.reads.precedes (has b hb)
      · exact follows_pure ⟨forall_mem_singleton.2 ha,
          h₁.weaken.congr (flatMap_singleton ..)⟩

theorem lines_grows (n : Nat) : (lines item n).Grows false
    (fun c as => ∀ a ∈ as, K c a) fun as => as.flatMap ns := by
  induction n with
  | zero => exact fun c => follows_pure ⟨nofun, (Cursor.Reads.refl c).spans⟩
  | succ n ih =>
    intro c
    refine follows_peek ?_
    split
    · next hk =>
      have h₁ : c.Reads true 0 0 c.advance := Cursor.reads_advance_kind hk
      refine follows_advance ((ih _).mono fun as c₁ ⟨has, h₂⟩ => ?_)
      exact ⟨fun a ha => hK h₁.precedes (has a ha), (Cursor.Spans.after h₁ h₂).weaken⟩
    · next hk =>
      exact follows_advance (follows_pure ⟨nofun, (Cursor.reads_advance_kind hk).weaken.spans⟩)
    · exact follows_pure ⟨nofun, (Cursor.Reads.refl c).spans⟩
    · refine (h c).bind fun a c₁ ⟨ha, h₁⟩ => (ih c₁).bind fun as c₂ ⟨has, h₂⟩ => ?_
      refine follows_pure ⟨forall_mem_cons.2 ⟨ha, fun b hb => ?_⟩, (h₁.trans h₂).weaken⟩
      exact hK h₁.reads.precedes (has b hb)

end Lists

/-- The arguments between the parentheses of a call. -/
theorem argItems_grows : (items .rparen (r.arg d) r.fuel).Grows false
    (fun c args => ∀ a ∈ args, a.value.Complete anyKey ∧ (c.Spelled → IsArgName a))
    fun args => args.flatMap fun a => a.value.nodes :=
  items_grows (fun hp hk => ⟨hk.1, fun hs => hk.2 (hp.spelled hs)⟩) (arg_grows hr d) .rparen r.fuel

theorem args_grows : (r.args d).Grows true
    (fun c args => CompleteArgs anyKey args ∧ (c.Spelled → ∀ a ∈ args, IsArgName a))
    (walkArgs fun _ => .parts) := by
  intro c
  refine (follows_expect .lparen c).bind fun _ c₁ ⟨_, h₁⟩ => ?_
  refine (argItems_grows hr d c₁).bind fun args c₂ ⟨ha, h₂⟩ => ?_
  refine (follows_expect .rparen c₂).bind fun _ c₃ ⟨_, h₃⟩ => ?_
  refine follows_pure ⟨⟨completeArgs_iff.2 fun a hmem => (ha a hmem).1, fun hs a hmem => ?_⟩, ?_⟩
  · exact (ha a hmem).2 (h₁.spelled hs)
  · exact (h₂.congr (walkArgs_eq _ args)).within h₁ h₃

/-! ### Statements on a line and blocks -/

theorem simple_grows :
    (r.simple d).Grows true (fun _ => Stmt.Complete anyKey) Stmt.nodes := by
  intro c
  -- an expression that is no target is found out behind the value, and the error stands at the start
  refine follows_of_start (follows_peek ((hr.expr d c).bind fun e c₁ ⟨he, h₁⟩ => follows_peek ?_))
  split
  · next hop =>
    refine follows_advance ((hr.expr d _).bind fun value c₂ ⟨hv, h₂⟩ => ?_)
    have h₂ := Cursor.Spans.after (reads_advance_op hop) h₂.drop
    split
    · refine follows_pure ⟨⟨hv, by simp⟩, (Cursor.Spans.after h₁.reads h₂).node (fun hs => ?_) rfl⟩
      simpa [Node.Named, Stmt.declared] using (each_cons.1 (h₁.named hs)).1
    · exact follows_pure ⟨⟨trivial, he, hv⟩, (h₁.drop.trans h₂).node
        (fun _ => by simp [Node.Named, AssignOp.known]) rfl⟩
    · exact follows_failAt _ _
  · split
    · next hop =>
      obtain ⟨op, hmem, hop⟩ := any_eq_true.1 hop
      have hknown : AssignOp.ofSpelling c₁.peek.lexeme ∈ AssignOp.known :=
        AssignOp.ofSpelling_mem_known ((Token.isOp_iff.1 hop).2 ▸ hmem)
      refine follows_advance ((hr.expr d _).bind fun value c₂ ⟨hv, h₂⟩ => ?_)
      have h₂ := Cursor.Spans.after (reads_advance_op hop) h₂.drop
      split
      · exact follows_pure ⟨⟨trivial, he, hv⟩, (h₁.drop.trans h₂).node (fun _ => hknown) rfl⟩
      · exact follows_pure ⟨⟨trivial, he, hv⟩, (h₁.drop.trans h₂).node (fun _ => hknown) rfl⟩
      · exact follows_failAt _ _
    · exact follows_pure ⟨he, h₁.drop.node (fun _ => trivial) rfl⟩

theorem block_grows : (r.block d).Grows true (fun _ => CompleteStmts anyKey)
    (walkStmts fun _ => .parts) := by
  intro c
  refine (follows_enter d c).bind fun d _ hc => ?_
  subst hc
  refine (follows_expect .newline _).bind fun _ c₁ ⟨_, h₁⟩ => ?_
  refine (follows_expect .indent c₁).bind fun _ c₂ ⟨_, h₂⟩ => ?_
  refine (lines_grows (fun _ h => h) (hr.stmt d) r.fuel c₂).mono fun ss c₃ ⟨hs, h₃⟩ => ?_
  exact ⟨completeStmts_iff.2 hs, .after (h₁.trans h₂) (h₃.congr (walkStmts_eq _ ss))⟩

theorem body_grows : (r.body d).Grows true (fun _ => CompleteStmts anyKey)
    (walkStmts fun _ => .parts) := by
  intro c
  refine follows_peek ?_
  split
  · exact block_grows hr d c
  · refine (simple_grows hr d c).bind fun s c₁ ⟨hs, h₁⟩ => ?_
    exact follows_pure ⟨⟨hs, trivial⟩, h₁.congr (List.append_nil _)⟩

/-! ### Switch and if -/

theorem arm_grows : (r.arm d).Grows true
    (fun _ a => (a.test.isMissing = true ∨ a.test.Complete anyKey) ∧ CompleteStmts anyKey a.body)
    fun a => a.test.nodes ++ walkStmts (fun _ => .parts) a.body := by
  intro c
  refine follows_peek ?_
  extract_lets later
  have hlater (test : Expr) (c₁ : Cursor) (ht : test.isMissing = true ∨ test.Complete anyKey)
      (h₁ : c.Spans false c₁ [] test.nodes) : Follows (later test) c₁ fun a c' =>
        ((a.test.isMissing = true ∨ a.test.Complete anyKey) ∧ CompleteStmts anyKey a.body) ∧
          c.Spans true c' [] (a.test.nodes ++ walkStmts (fun _ => .parts) a.body) := by
    refine (follows_expectOp "=>" c₁).bind fun _ c₂ ⟨_, h₂⟩ => ?_
    refine (body_grows hr d c₂).bind fun body c₃ ⟨hb, h₃⟩ => ?_
    refine (follows_endStatement c₃).bind fun _ c₄ h₄ => ?_
    exact follows_pure ⟨⟨ht, hb⟩, h₁.trans (.after h₂ (h₃.before h₄))⟩
  split
  · exact hlater _ c (.inl rfl) (Cursor.Reads.refl c).spans
  · exact (hr.expr d c).bind fun e c₁ ⟨he, h₁⟩ => hlater e c₁ (.inr he) h₁.drop.weaken

/-- A switch stands on its keyword. -/
theorem switchParts_follows (c : Cursor) : Follows (r.switchParts d) c fun parts c' =>
    ((parts.1.isMissing = true ∨ parts.1.Complete anyKey) ∧ CompleteArms anyKey parts.2) ∧
      c.Spans true c' [c.peek.pos] (parts.1.nodes ++ walkArms (fun _ => .parts) parts.2) := by
  refine (follows_expectKeyword "switch" c).bind fun _ c₁ ⟨⟨hk, hc₁⟩, h₁⟩ => follows_peek ?_
  subst hc₁
  extract_lets later
  have hlater (subject : Expr) (c₂ : Cursor)
      (hs : subject.isMissing = true ∨ subject.Complete anyKey)
      (h₂ : c.advance.Spans false c₂ [] subject.nodes) : Follows (later subject) c₂ fun parts c' =>
        ((parts.1.isMissing = true ∨ parts.1.Complete anyKey) ∧ CompleteArms anyKey parts.2) ∧
          c.Spans true c' [c.peek.pos] (parts.1.nodes ++ walkArms (fun _ => .parts) parts.2) := by
    refine (follows_enter d c₂).bind fun d _ hc => ?_
    subst hc
    refine (follows_expect .newline _).bind fun _ c₃ ⟨_, h₃⟩ => ?_
    refine (follows_expect .indent c₃).bind fun _ c₄ ⟨_, h₄⟩ => ?_
    refine (lines_grows (fun _ h => h) (arm_grows hr d) r.fuel c₄).bind fun as c₅ ⟨ha, h₅⟩ => ?_
    have harms := h₂.trans (.after (h₃.trans h₄) (h₅.congr (walkArms_eq _ as)))
    exact follows_pure ⟨⟨hs, completeArms_iff.2 ha⟩, .word h₁ (by rw [hk]; rfl) harms⟩
  split
  · exact hlater _ _ (.inl rfl) (Cursor.Reads.refl _).spans
  · exact (hr.expr d _).bind fun e c₂ ⟨he, h₂⟩ => hlater e c₂ (.inr he) h₂.drop.weaken

/-- A choice stands on its keyword. -/
theorem ifParts_follows (n : Nat) (c : Cursor) : Follows (r.ifParts d n) c fun parts c' =>
    (parts.1.Complete anyKey ∧ CompleteStmts anyKey parts.2.1 ∧ CompleteStmts anyKey parts.2.2) ∧
      c.Spans true c' [c.peek.pos] (parts.1.nodes ++ walkStmts (fun _ => .parts) parts.2.1 ++
        walkStmts (fun _ => .parts) parts.2.2) := by
  induction n generalizing c with
  | zero => exact follows_unexpected
  | succ n ih =>
    refine (follows_expectKeyword "if" c).bind fun _ c₁ ⟨⟨hk, hc₁⟩, h₁⟩ => ?_
    subst hc₁
    refine (hr.expr d _).bind fun cond c₂ ⟨hc, h₂⟩ => ?_
    refine (block_grows hr d c₂).bind fun yes c₃ ⟨hy, h₃⟩ => follows_peek ?_
    have h := Cursor.Spans.word h₁ (by rw [hk]; rfl) (h₂.drop.trans h₃)
    split
    · next helse =>
      refine follows_advance (follows_peek ?_)
      have h := h.before (reads_advance_keyword helse)
      split
      · refine (ih _).bind fun parts c₄ ⟨hp, h₄⟩ => ?_
        have hchain := h₄.drop.node
          (n := .stmt (.ifElse c₃.advance.peek.pos parts.1 parts.2.1 parts.2.2))
          (fun _ => trivial) rfl
        exact follows_pure ⟨⟨hc, hy, hp, trivial⟩, h.trans (hchain.congr (List.append_nil _))⟩
      · refine (block_grows hr d _).bind fun no c₄ ⟨hn, h₄⟩ => ?_
        exact follows_pure ⟨⟨hc, hy, hn⟩, h.trans h₄⟩
    · exact follows_pure ⟨⟨hc, hy, trivial⟩, h.congr (List.append_nil _)⟩

/-! ### Expressions -/

theorem primary_grows : (r.primary d).GrowsExpr := by
  intro c
  have hleaf {e : Expr} (hr : c.Reads true 0 0 c.advance) (ht : c.peek.kind.isText = true)
      (hn : c.Spelled → Node.Named IsLocalName (.expr e)) (hl : Node.link? (.expr e) = none) :
      c.Spans true c.advance [c.peek.pos] [.expr e] :=
    (Cursor.Spans.word hr ht (Cursor.Reads.refl _).spans).node hn hl
  refine follows_peek ?_
  split
  case h_1 hk | h_2 hk | h_3 hk | h_4 hk =>
    exact follows_advance (follows_pure ⟨trivial,
      hleaf (Cursor.reads_advance_kind hk) (by rw [hk]; rfl) (fun _ => trivial) rfl⟩)
  case h_5 hk =>
    refine follows_advance (follows_peek ?_)
    have hna : Script.isNameShaped "na" = true := by decide
    split
    · exact follows_pure ⟨trivial,
        hleaf (Cursor.reads_advance_kind hk) (by rw [hk]; rfl) (fun _ => hna) rfl⟩
    · exact follows_pure ⟨trivial,
        hleaf (Cursor.reads_advance_kind hk) (by rw [hk]; rfl) (fun _ => trivial) rfl⟩
  case h_6 hk =>
    exact follows_advance (follows_pure ⟨trivial,
      hleaf (Cursor.reads_advance_kind hk) (by rw [hk]; rfl) (fun hs => hs.peek (.inl hk)) rfl⟩)
  case h_7 hk =>
    refine follows_advance ((hr.expr d _).bind fun e c₁ ⟨he, h₁⟩ => ?_)
    refine (follows_expect .rparen c₁).bind fun _ c₂ ⟨_, h₂⟩ => ?_
    exact follows_pure ⟨he, h₁.within (Cursor.reads_advance_kind hk) h₂⟩
  case h_8 hk =>
    have hitems := items_grows (fun _ h => h) (hr.expr d).drop .rbracket r.fuel
    refine follows_advance ((hitems _).bind fun es c₁ ⟨he, h₁⟩ => ?_)
    refine (follows_expect .rbracket c₁).bind fun _ c₂ ⟨_, h₂⟩ => ?_
    have hread := (Cursor.reads_advance_kind hk).within h₁.reads h₂
    refine follows_pure ⟨completeExprs_iff.2 he, Cursor.Spans.node ?_ (fun _ => trivial) rfl⟩
    exact .token (by rw [hk]; rfl) hread (h₁.congr (walkExprs_eq _ es)) h₂
  case h_9 =>
    split
    · exact (switchParts_follows hr d c).bind fun parts c₁ ⟨hp, h⟩ =>
        follows_pure ⟨hp, h.node (fun _ => trivial) rfl⟩
    · split
      · exact (ifParts_follows hr d r.fuel c).bind fun parts c₁ ⟨hp, h⟩ =>
          follows_pure ⟨hp, h.node (fun _ => trivial) rfl⟩
      · exact follows_fail _
  case h_10 => exact follows_fail _

/-- The suffixes after an expression take over the position that it has of its own. -/
theorem suffixes_follows {c₀ : Cursor} : (n : Nat) → (e : Expr) → (c : Cursor) →
    e.Complete anyKey → c₀.Spans true c e.own e.nodes → Follows (r.suffixes d n e) c fun e' c' =>
      e'.Complete anyKey ∧ c₀.Spans true c' e'.own e'.nodes
  | 0, _, _, he, h => follows_pure ⟨he, h⟩
  | n + 1, e, c, he, h => by
    have hspelled := h.reads.spelled
    refine follows_peek ?_
    split
    · refine (args_grows hr d c).bind fun args c₁ ⟨⟨ha, hn⟩, h₁⟩ => ?_
      exact suffixes_follows n (.call e.pos 0 e args []) c₁ ⟨he, ha⟩
        (h.suffix h₁ rfl rfl fun hs => hn (hspelled hs))
    · next hdot =>
      refine follows_advance (follows_peek ?_)
      split
      · next hname =>
        simp only [Bool.or_eq_true, decide_eq_true_eq] at hname
        have hread := Cursor.reads_advance_word hname
        have h₁ := (Cursor.reads_advance_kind hdot).trans hread
        have hmember := h.suffix (f := .member e.pos e c.advance.peek.lexeme) h₁.spans rfl rfl
          fun hs => (c.precedes_advance.spelled (hspelled hs)).peek hname
        rw [List.append_nil] at hmember
        exact follows_advance (suffixes_follows n (.member ..) _ he hmember)
      · exact follows_fail _
    · next hk =>
      refine follows_advance ((hr.expr d _).bind fun offset c₁ ⟨ho, h₁⟩ => ?_)
      refine (follows_expect .rbracket c₁).bind fun _ c₂ ⟨_, h₂⟩ => ?_
      have hoffset := h₁.drop.within (Cursor.reads_advance_kind hk) h₂
      exact suffixes_follows n (.index ..) c₂ ⟨he, ho⟩
        (h.suffix hoffset rfl rfl fun hs => Expr.Named.index (h.named hs) _ _)
    · split
      · refine (callTypeArgs_yields r.fuel c).attempt.bind fun types c₁ h₁ => ?_
        cases types with
        | none => exact follows_pure ⟨he, (show c₁ = c from h₁) ▸ h⟩
        | some types =>
          have h₁ : c.Reads true 0 0 c₁ := h₁.2
          refine (args_grows hr d c₁).bind fun args c₂ ⟨⟨ha, hn⟩, h₂⟩ => ?_
          exact suffixes_follows n (.call e.pos 0 e args types) c₂ ⟨he, ha⟩
            (h.suffix (.after h₁ h₂) rfl rfl fun hs => hn (h₁.spelled (hspelled hs)))
      · exact follows_pure ⟨he, h⟩

theorem suffixed_grows : (r.suffixed d).GrowsExpr := fun c =>
  (primary_grows hr d c).bind fun e c₁ ⟨he, h₁⟩ => suffixes_follows hr d r.fuel e c₁ he h₁

theorem unary_grows : (n : Nat) → (d : Nesting) → (r.unary n d).GrowsExpr
  | 0, _, _ => follows_unexpected
  | n + 1, d, c => by
    refine follows_peek ?_
    split
    · next h =>
      obtain ⟨s, hs, hop⟩ := any_eq_true.1 h
      refine (follows_enter d c).bind fun d _ hc => ?_
      subst hc
      refine follows_advance ((unary_grows n d _).bind fun operand c₁ ⟨he, h₁⟩ => ?_)
      refine follows_pure ⟨⟨?_, he⟩, Cursor.Spans.node ?_ (fun _ => trivial) rfl⟩
      · exact UnaryOp.isKnown_ofSpelling ((Token.isOp_iff.1 hop).2 ▸ hs)
      · exact .word (reads_advance_op hop) (Token.isText_of_isOp hop) h₁.drop
    · exact suffixed_grows hr d c

omit hr in
theorem chain_follows {next : Parser Expr} (h : next.GrowsExpr) {ops : List BinaryOp}
    (hops : ∀ op ∈ ops, op ∈ BinaryOp.known) {c₀ : Cursor} : (n : Nat) → (left : Expr) →
    (c : Cursor) → left.Complete anyKey → c₀.Spans true c left.own left.nodes →
    Follows (chain next ops n left) c fun e c' =>
      e.Complete anyKey ∧ c₀.Spans true c' e.own e.nodes
  | 0, _, _, hl, hleft => follows_pure ⟨hl, hleft⟩
  | n + 1, left, c, hl, hleft => by
    refine follows_peek ?_
    split
    · next hop =>
      obtain ⟨op, hmem, hop⟩ := any_eq_true.1 hop
      have hknown : BinaryOp.ofSpelling c.peek.lexeme ∈ BinaryOp.known := by
        rw [(Token.isOp_iff.1 hop).2]
        exact BinaryOp.ofSpelling_mem_known (hops op hmem)
      refine follows_advance ((h _).bind fun right c₁ ⟨hright, h₁⟩ => ?_)
      refine chain_follows h hops n (.binary ..) c₁ ⟨hl, hright⟩ ?_
      have hop := Cursor.Spans.word (reads_advance_op hop) (Token.isText_of_isOp hop) h₁.drop
      exact (hleft.drop.trans hop).node (fun _ => hknown) rfl
    · exact follows_pure ⟨hl, hleft⟩

theorem binary_grows : {levels : List (List BinaryOp)} →
    (∀ ops ∈ levels, ∀ op ∈ ops, op ∈ BinaryOp.known) → (r.binary d levels).GrowsExpr
  | [], _ => unary_grows hr r.fuel d
  | ops :: tighter, h => fun c => by
    obtain ⟨hops, htighter⟩ := forall_mem_cons.1 h
    exact (binary_grows htighter c).bind fun left c₁ ⟨hl, h₁⟩ =>
      chain_follows (binary_grows htighter) hops r.fuel left c₁ hl h₁

theorem expression_grows : (r.expression d).GrowsExpr := by
  intro c
  refine (follows_enter d c).bind fun d _ hc => ?_
  subst hc
  refine (binary_grows hr d (by decide) _).bind fun cond c₁ ⟨hc, h₁⟩ => follows_peek ?_
  split
  · next hop =>
    refine follows_advance ((hr.expr d _).bind fun yes c₂ ⟨hy, h₂⟩ => ?_)
    refine (follows_expect .colon c₂).bind fun _ c₃ ⟨_, h₃⟩ => ?_
    refine (hr.expr d c₃).bind fun no c₄ ⟨hn, h₄⟩ => ?_
    have hop := Cursor.Spans.word (reads_advance_op hop) (Token.isText_of_isOp hop)
      (h₂.drop.before h₃)
    exact follows_pure ⟨⟨hc, hy, hn⟩,
      ((h₁.drop.trans hop).trans h₄.drop).node (fun _ => trivial) rfl⟩
  · exact follows_pure ⟨hc, h₁⟩

/-! ### Declarations -/

section Heads

variable {c c₀ : Cursor} (h : c.Reads true 0 0 c₀)

include h

/-- The value of a declaration, behind its head. -/
theorem declValue_follows {head : DeclHead} (hh : c.Spelled → head.Named) :
    Follows (r.declValue d head) c₀ fun s c' =>
      s.Complete anyKey ∧ c.Spans true c' [] s.nodes := by
  refine (hr.expr d c₀).bind fun value c₁ ⟨hv, h₁⟩ => ?_
  refine (follows_endStatement c₁).bind fun _ c₂ h₂ => ?_
  exact follows_pure ⟨⟨hv, fun _ _ => trivial⟩,
    (Cursor.Spans.after h (h₁.drop.before h₂)).node hh rfl⟩

/-- The body of a function, behind its head. -/
theorem funcBody_follows {head : FuncHead} (hh : c.Spelled → head.Named) (isMethod : Bool) :
    Follows (r.funcBody d head isMethod) c₀ fun s c' =>
      s.Complete anyKey ∧ c.Spans true c' [] s.nodes := by
  refine (body_grows hr d c₀).bind fun body c₁ ⟨hb, h₁⟩ => ?_
  refine (follows_endStatement c₁).bind fun _ c₂ h₂ => ?_
  exact follows_pure ⟨hb, (Cursor.Spans.after h (h₁.before h₂)).node hh rfl⟩

/-- The rest of a loop over a collection, behind its names. -/
theorem forIn_follows (pos : Pos) {index item : String} (hh : c.Spelled →
      (index = "" ∨ Script.isNameShaped index = true) ∧ Script.isNameShaped item = true) :
    Follows (r.forIn d pos index item) c₀ fun s c' =>
      s.Complete anyKey ∧ c.Spans true c' [] s.nodes := by
  refine (follows_expectKeyword "in" c₀).bind fun _ c₁ ⟨_, h₁⟩ => ?_
  refine (hr.expr d c₁).bind fun collection c₂ ⟨he, h₂⟩ => ?_
  refine (block_grows hr d c₂).bind fun body c₃ ⟨hb, h₃⟩ => ?_
  refine (follows_endStatement c₃).bind fun _ c₄ h₄ => ?_
  exact follows_pure ⟨⟨he, hb⟩,
    (Cursor.Spans.after (h.trans h₁) (h₂.drop.trans (h₃.before h₄))).node hh rfl⟩

end Heads

theorem param_grows : (r.param d).Grows true
    (fun c p => c.Spelled → Script.isNameShaped p.name = true) fun _ => [] := by
  intro c
  refine (typedName_yields r.fuel c).bind fun t c₁ ⟨ht, h₁⟩ => follows_peek ?_
  split
  · next hop =>
    refine follows_advance ((hr.expr d _).bind fun _ c₂ ⟨_, h₂⟩ => ?_)
    exact follows_pure ⟨ht, (h₁.trans ((reads_advance_op hop).trans h₂.reads)).spans⟩
  · exact follows_pure ⟨ht, h₁.spans⟩

theorem params_grows : (items .rparen (r.param d) r.fuel).Grows false
    (fun c params => ∀ p ∈ params, c.Spelled → Script.isNameShaped p.name = true)
    fun params => params.flatMap fun _ => [] :=
  items_grows (fun hp hk hs => hk (hp.spelled hs)) (param_grows hr d) .rparen r.fuel

/-- The head of a function ends with an arrow. -/
theorem funcHead_follows (c : Cursor) : Follows (r.funcHead d) c fun head c' =>
    ((c.Spelled → head.Named) ∧ ∃ t, t.isOp "=>" = true ∧ c'.past.head? = some t) ∧
      c.Reads true 0 0 c' := by
  refine (follows_identifier c).bind fun t c₁ ⟨ht, h₁⟩ => ?_
  refine (follows_expect .lparen c₁).bind fun _ c₂ ⟨_, h₂⟩ => ?_
  refine (params_grows hr d c₂).bind fun params c₃ ⟨hp, h₃⟩ => ?_
  refine (follows_expect .rparen c₃).bind fun _ c₄ ⟨_, h₄⟩ => ?_
  refine (follows_expectOp "=>" c₄).bind fun t c₅ ⟨harrow, h₅⟩ => ?_
  refine follows_pure ⟨⟨fun hs => ⟨ht hs, fun p hmem => ?_⟩, t, harrow⟩,
    h₁.trans ((h₂.within h₃.reads h₄).trans h₅)⟩
  exact hp p hmem (h₂.spelled (h₁.spelled hs))

theorem field_grows : (r.field d).Grows true (fun c f =>
    (f.initial.isMissing = true ∨ f.initial.Complete anyKey) ∧
      (c.Spelled → Script.isNameShaped f.name = true)) fun f => f.initial.nodes := by
  intro c
  refine follows_peek ?_
  extract_lets later
  have hlater (c' : Cursor) (h : c.Reads false 0 0 c') : Follows (later ()) c' fun f c'' =>
      ((f.initial.isMissing = true ∨ f.initial.Complete anyKey) ∧
        (c.Spelled → Script.isNameShaped f.name = true)) ∧
          c.Spans true c'' [] f.initial.nodes := by
    refine (typedName_yields r.fuel c').bind fun t c₁ ⟨ht, h₁⟩ => follows_peek ?_
    extract_lets close
    have hclose (initial : Expr) (c₂ : Cursor)
        (hi : initial.isMissing = true ∨ initial.Complete anyKey)
        (h₂ : c₁.Spans false c₂ [] initial.nodes) : Follows (close initial) c₂ fun f c'' =>
          ((f.initial.isMissing = true ∨ f.initial.Complete anyKey) ∧
            (c.Spelled → Script.isNameShaped f.name = true)) ∧
              c.Spans true c'' [] f.initial.nodes := by
      refine (follows_endStatement c₂).bind fun _ c₃ h₃ => ?_
      exact follows_pure ⟨⟨hi, fun hs => ht (h.spelled hs)⟩,
        .after (h.trans h₁) (h₂.before h₃)⟩
    split
    · next hop =>
      refine follows_advance ((hr.expr d _).bind fun e c₂ ⟨he, h₂⟩ => ?_)
      exact hclose e c₂ (.inr he) (Cursor.Spans.after (reads_advance_op hop) h₂.drop).weaken
    · exact hclose _ c₁ (.inl rfl) (Cursor.Reads.refl c₁).spans
  split
  · next hk => exact follows_advance (hlater _ (reads_advance_keyword hk).weaken)
  · exact hlater c (.refl c)

theorem typeDecl_follows {c : Cursor} (hk : c.peek.kind = .keyword) :
    Follows (r.typeDecl d) c fun s c' => s.Complete anyKey ∧ c.Spans true c' [] s.nodes := by
  refine follows_advance ((follows_identifier _).bind fun name c₁ ⟨hn, h₁⟩ => ?_)
  refine (follows_expect .newline c₁).bind fun _ c₂ ⟨_, h₂⟩ => ?_
  refine (follows_expect .indent c₂).bind fun _ c₃ ⟨_, h₃⟩ => ?_
  have hlines := lines_grows (fun hp hk => ⟨hk.1, fun hs => hk.2 (hp.spelled hs)⟩)
    (field_grows hr d) r.fuel
  refine (hlines c₃).bind fun fs c₄ ⟨hf, h₄⟩ => ?_
  have h : c.Reads true 0 0 c.advance := Cursor.reads_advance_kind hk
  have h₃ := h₁.trans (h₂.trans h₃)
  refine follows_pure ⟨completeFields_iff.2 fun f hmem => (hf f hmem).1, Cursor.Spans.node
    (.after (h.trans h₃) (h₄.congr (walkFields_eq _ fs))) (fun hs => ⟨hn (h.spelled hs), ?_⟩) rfl⟩
  exact fun f hmem => (hf f hmem).2 (h₃.spelled (h.spelled hs))

omit hr in
theorem importLib_follows {c : Cursor} (hk : c.peek.kind = .keyword) :
    Follows r.importLib c fun s c' => s.Complete anyKey ∧ c.Spans true c' [] s.nodes := by
  refine follows_advance (follows_peek ?_)
  extract_lets later
  have hlater (path : String) (c₁ : Cursor) (h₁ : c.Reads true 0 0 c₁) :
      Follows (later path) c₁ fun s c' => s.Complete anyKey ∧ c.Spans true c' [] s.nodes := by
    unfold later
    split
    · exact follows_peek (follows_fail _)
    · refine follows_peek ?_
      split
      · next has =>
        have h₁ := h₁.trans (reads_advance_keyword has)
        refine follows_advance ((follows_identifier _).bind fun _ c₂ ⟨hn, h₂⟩ => ?_)
        refine (follows_endStatement c₂).bind fun _ c₃ h₃ => ?_
        refine follows_pure ⟨trivial, (h₁.trans (h₂.trans h₃)).spans.node (fun hs => .inl ?_) rfl⟩
        exact Script.isIdentifier_of_isNameShaped (hn (h₁.spelled hs))
      · refine (follows_endStatement c₁).bind fun _ c₂ h₂ => ?_
        exact follows_pure ⟨trivial, (h₁.trans h₂).spans.node (fun _ => .inr rfl) rfl⟩
  have h := Cursor.reads_advance_kind hk
  split
  · next hs => exact follows_advance (hlater _ _ (h.trans (Cursor.reads_advance_kind hs)))
  · exact (importPath_yields r.fuel _).bind fun path c₁ ⟨_, h₁⟩ => hlater path c₁ (h.trans h₁)

/-! ### Loops -/

theorem forLoop_follows {c : Cursor} (hk : c.peek.kind = .keyword) :
    Follows (r.forLoop d) c fun s c' => s.Complete anyKey ∧ c.Spans true c' [] s.nodes := by
  have h : c.Reads true 0 0 c.advance := Cursor.reads_advance_kind hk
  refine follows_advance (follows_peek ?_)
  split
  · next hb =>
    refine follows_advance ((follows_identifier _).bind fun _ c₁ ⟨hi, h₁⟩ => ?_)
    refine (follows_expect .comma c₁).bind fun _ c₂ ⟨_, h₂⟩ => ?_
    refine (follows_identifier c₂).bind fun _ c₃ ⟨hn, h₃⟩ => ?_
    refine (follows_expect .rbracket c₃).bind fun _ c₄ ⟨_, h₄⟩ => ?_
    have hopen : c.Reads true 0 1 c.advance.advance := h.trans (Cursor.reads_advance_kind hb)
    have h₂ := h₁.trans h₂
    exact forIn_follows hr d (hopen.within (h₂.trans h₃) h₄) _ fun hs =>
      ⟨.inr (hi (hopen.spelled hs)), hn (h₂.spelled (hopen.spelled hs))⟩
  · refine (follows_identifier _).bind fun name c₁ ⟨hn, h₁⟩ => follows_peek ?_
    have hn (hs : c.Spelled) := hn (h.spelled hs)
    have h₁ := h.trans h₁
    split
    · exact forIn_follows hr d h₁ _ fun hs => ⟨.inl rfl, hn hs⟩
    · refine (follows_expectOp "=" c₁).bind fun _ c₂ ⟨_, h₂⟩ => ?_
      refine (hr.expr d c₂).bind fun first c₃ ⟨hf, h₃⟩ => ?_
      refine (follows_expectKeyword "to" c₃).bind fun _ c₄ ⟨_, h₄⟩ => ?_
      refine (hr.expr d c₄).bind fun last c₅ ⟨hl, h₅⟩ => follows_peek ?_
      have h := Cursor.Spans.after (h₁.trans h₂) (h₃.drop.trans (.after h₄ h₅.drop))
      extract_lets later
      have hlater (step : Expr) (c₆ : Cursor)
          (hs : step.isMissing = true ∨ step.Complete anyKey)
          (h₆ : c₅.Spans false c₆ [] step.nodes) :
          Follows (later step) c₆ fun s c' => s.Complete anyKey ∧ c.Spans true c' [] s.nodes := by
        refine (block_grows hr d c₆).bind fun body c₇ ⟨hb, h₇⟩ => ?_
        refine (follows_endStatement c₇).bind fun _ c₈ h₈ => ?_
        exact follows_pure ⟨countingLoop_complete _ _ _ hf hl hs hb,
          countingLoop_spans _ _ hn ((h.trans h₆).trans (h₇.before h₈))⟩
      split
      · next hby =>
        refine follows_advance ((hr.expr d _).bind fun e c₆ ⟨he, h₆⟩ => ?_)
        exact hlater e c₆ (.inr he) (Cursor.Spans.after (reads_advance_keyword hby) h₆.drop).weaken
      · exact hlater _ c₅ (.inl rfl) (Cursor.Reads.refl c₅).spans

/-! ### Statements -/

theorem keywordStatement_follows {c : Cursor} (hk : c.peek.kind = .keyword) :
    Follows (r.keywordStatement d) c fun s c' =>
      s.Complete anyKey ∧ c.Spans true c' [] s.nodes := by
  have h : c.Reads true 0 0 c.advance := Cursor.reads_advance_kind hk
  refine follows_peek ?_
  split
  · refine (ifParts_follows hr d r.fuel c).bind fun parts c₁ ⟨hp, h₁⟩ => ?_
    refine (follows_endStatement c₁).bind fun _ c₂ h₂ => ?_
    exact follows_pure ⟨hp, (h₁.drop.before h₂).node (fun _ => trivial) rfl⟩
  · refine follows_advance ((hr.expr d _).bind fun cond c₁ ⟨he, h₁⟩ => ?_)
    refine (block_grows hr d c₁).bind fun body c₂ ⟨hb, h₂⟩ => ?_
    refine (follows_endStatement c₂).bind fun _ c₃ h₃ => ?_
    exact follows_pure ⟨⟨he, hb⟩,
      (Cursor.Spans.after h (h₁.drop.trans (h₂.before h₃))).node (fun _ => trivial) rfl⟩
  · exact forLoop_follows hr d hk
  · refine (switchParts_follows hr d c).bind fun parts c₁ ⟨hp, h₁⟩ => ?_
    refine (follows_endStatement c₁).bind fun _ c₂ h₂ => ?_
    exact follows_pure ⟨hp, (h₁.drop.before h₂).node (fun _ => trivial) rfl⟩
  · refine follows_advance (follows_atLineEnd fun _ => ?_)
    extract_lets later
    have hlater (value : Expr) (c₁ : Cursor)
        (hv : value.isMissing = true ∨ value.Complete anyKey)
        (h₁ : c.advance.Spans false c₁ [] value.nodes) :
        Follows (later value) c₁ fun s c' => s.Complete anyKey ∧ c.Spans true c' [] s.nodes := by
      refine (follows_endStatement c₁).bind fun _ c₂ h₂ => ?_
      exact follows_pure ⟨hv, (Cursor.Spans.after h (h₁.before h₂)).node (fun _ => trivial) rfl⟩
    split
    · exact hlater _ _ (.inl rfl) (Cursor.Reads.refl _).spans
    · exact (hr.expr d _).bind fun e c₁ ⟨he, h₁⟩ => hlater e c₁ (.inr he) h₁.drop.weaken
  iterate 2
    · refine follows_advance ((follows_endStatement _).bind fun _ c₁ h₁ => ?_)
      exact follows_pure ⟨trivial, (h.trans h₁).spans.node (fun _ => trivial) rfl⟩
  iterate 2
    · refine follows_advance ((declHead_yields r.fuel false _).bind fun head c₁ ⟨hh, h₁⟩ => ?_)
      exact declValue_follows hr d (h.trans h₁) fun hs => hh (h.spelled hs)
  · exact typeDecl_follows hr d hk
  · exact importLib_follows hk
  · refine follows_of_start (follows_advance ((hr.stmt d _).bind fun decl c₁ ⟨hs, h₁⟩ => ?_))
    split
    · exact follows_pure ⟨hs, (Cursor.Spans.after h h₁).node (fun _ => trivial) rfl⟩
    · exact follows_failAt _ _
  · refine follows_advance ((funcHead_follows hr d _).bind fun head c₁ ⟨⟨hh, _⟩, h₁⟩ => ?_)
    have hmoved (hs : c.Spelled) : FuncHead.Named { head with pos := c.peek.pos } :=
      hh (h.spelled hs)
    exact funcBody_follows hr d (h.trans h₁) hmoved true
  · exact follows_fail _

theorem simpleStatement_grows :
    (r.simpleStatement d).Grows true (fun _ => Stmt.Complete anyKey) Stmt.nodes := by
  intro c
  refine (simple_grows hr d c).bind fun s c₁ ⟨hs, h₁⟩ => ?_
  refine (follows_endStatement c₁).bind fun _ c₂ h₂ => ?_
  exact follows_pure ⟨hs, h₁.before h₂⟩

theorem statement_grows :
    (r.statement d).Grows true (fun _ => Stmt.Complete anyKey) Stmt.nodes := by
  intro c
  refine follows_peek ?_
  split
  · next hk => exact keywordStatement_follows hr d hk
  · refine (tupleHead_yields r.fuel c).attempt.bind fun head c₁ h₁ => ?_
    cases head with
    | none =>
      cases h₁
      exact simpleStatement_grows hr d c
    | some head => exact declValue_follows hr d h₁.2 h₁.1
  · refine (funcHead_follows hr d c).attempt.bind fun head c₁ h₁ => ?_
    cases head with
    | some head => exact funcBody_follows hr d h₁.2 h₁.1.1 false
    | none =>
      cases h₁
      refine (declHead_yields r.fuel true c).attempt.bind fun head c₁ h₁ => ?_
      cases head with
      | none =>
        cases h₁
        exact simpleStatement_grows hr d c
      | some head => exact declValue_follows hr d h₁.2 h₁.1
  · exact simpleStatement_grows hr d c

end Rules

/-! ### The closed grammar -/

/-- **The rules of the closed grammar yield complete trees, held by their tokens.** -/
theorem sound_at : (n : Nat) → Rules.Sound ⟨n, exprAt n, stmtAt n⟩
  | 0 => ⟨fun _ _ => follows_unexpected, fun _ _ => follows_unexpected⟩
  | n + 1 => ⟨fun d => Rules.expression_grows (sound_at n) d,
      fun d => Rules.statement_grows (sound_at n) d⟩

section Program

variable {stmt : Parser Stmt} (h : stmt.Grows true (fun _ => Stmt.Complete anyKey) Stmt.nodes)

include h

/-- What is read statement by statement is complete, and well-named if the tokens are
well-spelled. -/
theorem program_complete : (n errors : Nat) → (c : Cursor) →
    CompleteStmts anyKey (program stmt n errors c).1 ∧
      (c.Spelled → NamedStmts IsLocalName (program stmt n errors c).1)
  | 0, _, _ => ⟨trivial, fun _ => each_nil⟩
  | n + 1, errors, c => by
    have hs := h c
    unfold Follows FollowsOr at hs
    unfold program
    split
    · exact ⟨trivial, fun _ => each_nil⟩
    iterate 3
      exact (program_complete n errors _).imp_right fun ih hc => ih (c.precedes_advance.spelled hc)
    · split
      · next s c' heq =>
        rw [heq] at hs
        have ih := program_complete n errors c'
        exact ⟨⟨hs.2.1, ih.1⟩, fun hc => each_append.2 ⟨hs.2.2.named hc, ih.2 (hs.1.spelled hc)⟩⟩
      · next e c' heq =>
        rw [heq] at hs
        split
        · exact ⟨trivial, fun _ => each_nil⟩
        · have hskip : c.Precedes (synchronize c') :=
            hs.precedes.trans (c'.precedes_advance.trans (Rule.precedes_synchronize c'))
          exact (program_complete n _ _).imp_right fun ih hc => ih (hskip.spelled hc)

/-- A reading without errors moves up to an end of input, over tokens that hold the nodes. -/
theorem program_spans : (n errors : Nat) → (c : Cursor) → c.rest.length < n →
    (program stmt n errors c).2 = [] → ∃ c',
      c.Spans false c' [] (Program.nodes (program stmt n errors c).1) ∧ c'.peek.kind = .eof
  | n + 1, errors, c, hf, he => by
    have hnext {c₁ : Cursor} (h₁ : c.Reads true 0 0 c₁) (he₁ : (program stmt n errors c₁).2 = []) :
        ∃ c', c₁.Spans false c' [] (Program.nodes (program stmt n errors c₁).1) ∧
          c'.peek.kind = .eof := by
      have := h₁.length_lt
      exact program_spans n errors c₁ (by omega) he₁
    unfold program at he ⊢
    split
    · next hk => exact ⟨c, (Cursor.Reads.refl c).spans, hk⟩
    iterate 3
      · next hk =>
        rw [hk] at he
        have h₁ : c.Reads true 0 0 c.advance := Cursor.reads_advance_kind hk
        obtain ⟨c', h', hend⟩ := hnext h₁ he
        exact ⟨c', (Cursor.Spans.after h₁ h').weaken, hend⟩
    · split
      · next s c₁ hs =>
        simp only [hs] at he
        have h₁ := (h c).ensures s c₁ hs
        obtain ⟨c', h', hend⟩ := hnext h₁.2.reads he
        exact ⟨c', (h₁.2.trans h').weaken, hend⟩
      · next hs =>
        simp only [hs] at he
        split at he <;> cases he

end Program

end Grammar

namespace Program

/-- **The program that tokens form is complete**, also if there were errors. -/
theorem complete_parse (limits : Limits) (tokens : List Token) :
    CompleteStmts anyKey (parse limits tokens).program := by
  rw [parse_eq_program]
  split
  · exact trivial
  · exact (Grammar.program_complete ((Grammar.sound_at (tokens.length + 2)).stmt _) _ _ _).1

/-- **The program that well-spelled tokens form is well-named**, also if there were errors. -/
theorem named_parse (limits : Limits) {tokens : List Token} (h : ∀ t ∈ tokens, t.Spelled) :
    NamedStmts Grammar.IsLocalName (parse limits tokens).program := by
  rw [parse_eq_program]
  split
  · exact each_nil
  · exact (Grammar.program_complete ((Grammar.sound_at (tokens.length + 2)).stmt _) _ _ _).2 h

/-- A program without errors is held by its tokens. -/
theorem exists_spans_parse {limits : Limits} {tokens : List Token}
    (h : (parse limits tokens).errors = []) : ∃ c', (Cursor.start tokens).Spans false c' []
      (parse limits tokens).program.nodes ∧ c'.peek.kind = .eof := by
  rw [parse_eq_program] at h ⊢
  split at h
  · cases h
  · next hcount =>
    rw [if_neg hcount]
    exact Grammar.program_spans ((Grammar.sound_at (tokens.length + 2)).stmt _) _ _ _
      (Nat.lt_succ_self _) h

/-- **The tokens of a program without errors have matching brackets.** -/
theorem levelAfter_of_parse {limits : Limits} {tokens : List Token} {eof : Token}
    (h : (parse limits (tokens ++ [eof])).errors = []) (hk : eof.kind = .eof)
    (ht : ∀ t ∈ tokens, t.kind ≠ .eof) : Token.levelAfter 0 (tokens ++ [eof]) = 0 := by
  obtain ⟨⟨past, rest⟩, hspans, hc⟩ := exists_spans_parse h
  obtain ⟨used, hu, -, hl, -⟩ := hspans.reads
  change tokens ++ [eof] = used ++ rest at hu
  rcases eq_nil_or_concat rest with rfl | ⟨rest, t, rfl⟩
  · rw [hu, List.append_nil]
    exact hl 0
  · -- the only end of input is the last token, so all tokens before it have been read
    rw [concat_eq_append, ← append_assoc] at hu
    obtain ⟨rfl, -⟩ := append_inj' hu rfl
    cases rest with
    | cons u rest => exact absurd hc (ht u (by simp))
    | nil =>
      rw [List.append_nil, Token.levelAfter_append, hl 0]
      change Layout.nest eof.kind 0 = 0
      rw [hk]
      rfl

end Program

end Pine
