import Pine.Proofs.Grammar.Reads

/-!
# Laws of the rules

The rules count the depth in their state and stop at a bound on their repetitions. The other form of
the grammar is handed the depth and runs out of repetitions in silence. Both do the same wherever
the bounds are past the number of tokens left: each repetition reads a token before it goes on, so
neither bound is ever met. Along with this, a rule moves forward, and the other form follows any law
that sequences and steps one level deeper inherit.

The proof takes the rules one after the other, from agreement at a cursor to agreement at the
cursors behind it. The circle of expressions and statements is closed by induction on the tokens left.
-/

namespace Pine

namespace Cursor

variable {c c' : Cursor}

theorem Precedes.ahead_le (h : c.Precedes c') : c'.ahead ≤ c.ahead := by
  obtain ⟨used, hr, -⟩ := h
  rw [ahead, ahead, hr, List.length_append]
  exact Nat.le_add_left _ _

end Cursor

namespace Rule

open Pine.Parser Grammar

variable {α β : Type} {i j k : Nat} {c : Cursor} {p : Rule α} {q : Nesting → Parser α}

/-! ### Agreement at a cursor -/

/-- An outcome of a parser as the one of a rule that leaves the depth as it was. -/
def outcome (d : Nesting) : EStateM.Result ParseError Cursor α → EStateM.Result Stop State α
  | .ok a c => .ok a ⟨c, d.depth, d.limit⟩
  | .error e c => .error (.error e) ⟨c, d.depth, d.limit⟩

/-- An outcome moves the cursor forward, over `k` tokens at least if it is a success. -/
def Moves (k : Nat) (c : Cursor) : EStateM.Result ParseError Cursor α → Prop
  | .ok _ c' => c.Precedes c' ∧ c'.ahead + k ≤ c.ahead
  | .error _ c' => c.Precedes c'

/-- A property of the other form at a cursor that sequences and steps one level deeper inherit. -/
class Law (L : {α : Type} → (Nesting → Parser α) → Cursor → Prop) : Prop where
  const : ∀ {α : Type} (p : Parser α) (c : Cursor), L (fun _ => p) c
  bind : ∀ {α β : Type} {q : Nesting → Parser α} {g : α → Nesting → Parser β} {c : Cursor}, L q c →
    (∀ d a c', q d c = .ok a c' → L (g a) c') → L (fun d => q d >>= fun a => g a d) c
  enter : ∀ {α : Type} {q : Nesting → Parser α} {c : Cursor}, L q c → L (fun d => d.enter >>= q) c

/-- The law that demands nothing. -/
def Free {α : Type} (_ : Nesting → Parser α) (_ : Cursor) : Prop := True

instance : Law Free := ⟨fun _ _ => trivial, fun _ _ => trivial, fun _ => trivial⟩

variable {L : {α : Type} → (Nesting → Parser α) → Cursor → Prop} [Law L]

/-- At a cursor, a rule does in every state what the other form does in the nesting, it moves over
`k` tokens at least if it succeeds, and the other form follows a law. -/
structure At (L : {α : Type} → (Nesting → Parser α) → Cursor → Prop) (k : Nat) (p : Rule α)
    (q : Nesting → Parser α) (c : Cursor) : Prop where
  agrees : ∀ d : Nesting, p ⟨c, d.depth, d.limit⟩ = outcome d (q d c)
  moves : ∀ d : Nesting, Moves k c (q d c)
  law : L q c

omit [Law L] in
theorem At.mono (h : At L k p q c) (hj : j ≤ k) : At L j p q c := by
  refine { h with moves := fun d => ?_ }
  have hm := h.moves d
  unfold Moves at *
  split at hm
  · exact ⟨hm.1, by omega⟩
  · exact hm

theorem at_lift {p : Parser α} (h : Moves k c (p c)) : At L k (liftM p) (fun _ => p) c :=
  ⟨fun _ => rfl, fun _ => h, Law.const p c⟩

theorem at_pure (a : α) : At L 0 (pure a) (fun _ => pure a) c :=
  at_lift (p := pure a) ⟨.refl c, Nat.le_refl _⟩

theorem at_fail (t : Token) (cause : ParseError.Cause) :
    At L k (liftM (fail t cause : Parser α)) (fun _ => fail t cause) c :=
  at_lift (.refl c)

section Bind

variable {f : α → Rule β} {g : α → Nesting → Parser β}

/-- A sequence, where the rest knows how the first part came out. -/
theorem At.andThen (h : At L j p q c)
    (h' : ∀ d a c', q d c = .ok a c' → At L (i - j) (f a) (g a) c') :
    At L i (p >>= f) (fun d => q d >>= fun a => g a d) c := by
  refine ⟨fun d => ?_, fun d => ?_, Law.bind h.law fun d a c' hq => (h' d a c' hq).law⟩
  · change EStateM.bind p f _ = outcome d (EStateM.bind (q d) _ c)
    unfold EStateM.bind
    rw [h.agrees]
    cases hq : q d c with
    | error e c' => rfl
    | ok a c' => exact (h' d a c' hq).agrees d
  · have hm := h.moves d
    change Moves i c (EStateM.bind (q d) _ c)
    unfold EStateM.bind
    cases hq : q d c with
    | error e c' => rwa [hq] at hm
    | ok a c' =>
      rw [hq] at hm
      have hm' := (h' d a c' hq).moves d
      dsimp only
      unfold Moves at hm hm' ⊢
      split at hm'
      · exact ⟨hm.1.trans hm'.1, by omega⟩
      · exact hm.1.trans hm'

theorem At.bind (h : At L j p q c)
    (h' : ∀ a c', c'.ahead + j ≤ c.ahead → At L (i - j) (f a) (g a) c') :
    At L i (p >>= f) (fun d => q d >>= fun a => g a d) c :=
  h.andThen fun d a c' hq => h' a c' (by
    have hm := h.moves d
    rw [hq] at hm
    exact hm.2)

/-- A first step that only looks. -/
theorem at_look {p : Parser α} {a : α} (hp : p c = .ok a c) (h : At L k (f a) (g a) c) :
    At L k (liftM p >>= f) (fun d => p >>= fun a => g a d) c :=
  At.andThen (at_lift (k := 0) (by rw [hp]; exact ⟨.refl c, Nat.le_refl _⟩)) fun _ b c' hb => by
    obtain ⟨rfl, rfl⟩ := EStateM.Result.ok.inj (hp.symm.trans hb)
    exact h

theorem at_next {a : α} (h : ∀ a c', c'.ahead ≤ c.ahead → At L k (f a) (g a) c') :
    At L k (pure a >>= f) (fun d => pure a >>= fun a => g a d) c :=
  at_look (p := pure a) rfl (h a c (Nat.le_refl _))

end Bind

theorem at_peek {f : Token → Rule β} {g : Token → Nesting → Parser β}
    (h : At L k (f c.peek) (g c.peek) c) :
    At L k (liftM peek >>= f) (fun d => peek >>= fun t => g t d) c := at_look rfl h

theorem at_peekNext {f : Token → Rule β} {g : Token → Nesting → Parser β}
    (h : At L k (f c.peekNext) (g c.peekNext) c) :
    At L k (liftM peekNext >>= f) (fun d => peekNext >>= fun t => g t d) c := at_look rfl h

omit [Law L] in
theorem at_ite {P : Prop} [Decidable P] {p' : Rule α} {q' : Nesting → Parser α}
    (hp : P → At L k p q c) (hq : ¬P → At L k p' q' c) :
    At L k (if P then p else p') (fun d => if P then q d else q' d) c := by
  by_cases h : P
  · simpa only [if_pos h] using hp h
  · simpa only [if_neg h] using hq h

omit [Law L] in
/-- A choice between two ways to go on with the same rest. -/
theorem at_join {P : Prop} [Decidable P] {p p' : Rule β} {q q' : Nesting → Parser β}
    {f : α → Rule β} {g : α → Nesting → Parser β}
    (hp : (∀ a c', c'.ahead ≤ c.ahead → At L k (f a) (g a) c') → P → At L i p q c)
    (hq : (∀ a c', c'.ahead ≤ c.ahead → At L k (f a) (g a) c') → ¬P → At L i p' q' c)
    (h : ∀ a c', c'.ahead ≤ c.ahead → At L k (f a) (g a) c') :
    At L i (if P then p else p') (fun d => if P then q d else q' d) c :=
  at_ite (hp h) (hq h)

/-- A step that may be left out. -/
theorem at_option {P : Prop} [Decidable P] {f : Rule β} {g : Nesting → Parser β} (h : At L 0 p q c)
    (h' : ∀ c', c'.ahead ≤ c.ahead → At L k f g c') :
    At L k (if P then p >>= fun _ => f else f)
      (fun d => if P then q d >>= fun _ => g d else g d) c :=
  at_ite (fun _ => h.bind fun _ c' hc' => h' c' hc') fun _ => h' c (Nat.le_refl _)

/-! ### Reading tokens -/

theorem moves_of_reads {E : Token → Prop} {p : Parser α} {R : α → Cursor → Prop}
    (h : FollowsOr E p c R) (hR : ∀ a c', R a c' → c'.ahead + k ≤ c.ahead) :
    Moves k c (p c) := by
  unfold FollowsOr at h
  cases hp : p c with
  | ok a c' =>
    rw [hp] at h
    exact ⟨h.1, hR a c' h.2⟩
  | error e c' =>
    rw [hp] at h
    exact h.precedes

theorem at_advance (h : 0 < c.ahead) : At L 1 (liftM advance) (fun _ => advance) c := by
  obtain ⟨past, _ | ⟨t, rest⟩⟩ := c
  · cases h
  · exact at_lift ⟨Cursor.precedes_advance _, Nat.le_refl _⟩

theorem at_skip : At L 0 (liftM advance) (fun _ => advance) c :=
  at_lift ⟨c.precedes_advance, c.length_rest_advance_le⟩

theorem at_expect {kind : Token.Kind} (h : kind ≠ .eof) :
    At L 1 (liftM (expect kind)) (fun _ => expect kind) c :=
  at_lift (moves_of_reads (follows_expect kind c) fun _ _ hr => by
    have hreads := hr.2
    rw [bne_iff_ne.2 h] at hreads
    exact hreads.length_lt)

theorem at_expectOp {s : String} : At L 1 (liftM (expectOp s)) (fun _ => expectOp s) c :=
  at_lift (moves_of_reads (follows_expectOp s c) fun _ _ hr => hr.2.length_lt)

theorem at_expectKeyword {s : String} :
    At L 1 (liftM (expectKeyword s)) (fun _ => expectKeyword s) c :=
  at_lift (moves_of_reads (follows_expectKeyword s c) fun _ _ hr => hr.2.length_lt)

theorem at_lineEnd {f : Bool → Rule β} {g : Bool → Nesting → Parser β}
    (h : ∀ b, (b = false → c.peek.kind ≠ .eof) → At L k (f b) (g b) c) :
    At L k (liftM atLineEnd >>= f) (fun d => atLineEnd >>= fun b => g b d) c :=
  at_look (a := c.peek.kind = .newline || c.peek.kind = .eof || c.peek.kind = .dedent) rfl
    (h _ (by simp_all))

/-- The end of a statement and its tree. -/
theorem at_end (a : α) : At L 0 (liftM endStatement >>= fun _ => pure a)
    (fun _ => endStatement >>= fun _ => pure a) c :=
  (at_lift (k := 0) (moves_of_reads (follows_endStatement c) fun _ _ h => h.precedes.ahead_le)).bind
    fun _ _ _ => at_pure a

theorem ahead_pos (h : c.peek.kind ≠ .eof) : 0 < c.ahead := by
  obtain ⟨past, _ | ⟨t, rest⟩⟩ := c
  · exact absurd (Cursor.kind_endAfter _) h
  · exact Nat.succ_pos _

theorem ahead_of_any {xs : List β} {f : β → String}
    (h : (xs.any fun x => c.peek.isOp (f x)) = true) : 0 < c.ahead := by
  obtain ⟨x, -, hx⟩ := List.any_eq_true.1 h
  exact ahead_pos (by simp [(Token.isOp_iff.1 hx).1])

theorem ahead_of_isKeyword {word : String} (h : c.peek.isKeyword word = true) : 0 < c.ahead :=
  ahead_pos (by simp [(Token.isKeyword_iff.1 h).1])

/-! ### Counting and attempts -/

theorem enter_eq (d : Nesting) : enter ⟨c, d.depth, d.limit⟩ =
    if 0 < d.limit ∧ d.limit < d.depth + 1 then
      .error (.error (.atToken c.peek (.tooDeep d.limit))) ⟨c, d.depth, d.limit⟩
    else .ok () ⟨c, d.depth + 1, d.limit⟩ := by
  have hrun : enter ⟨c, d.depth, d.limit⟩ = (if 0 < d.limit ∧ d.limit < d.depth + 1 then (do
      leave
      fail (← peek) (.tooDeep d.limit) : Rule Unit) else pure ()) ⟨c, d.depth + 1, d.limit⟩ := rfl
  rw [hrun]
  split <;> rfl

theorem tryFinally_leave (s : State) : (tryFinally p leave) s = match p s with
    | .ok a s => .ok a { s with depth := s.depth - 1 }
    | .error e s => .error e { s with depth := s.depth - 1 } := by
  simp only [tryFinally, tryFinally', Functor.map, EStateM.map]
  cases p s <;> rfl

theorem bind_of_ok {f : α → Rule β} {s s' : State} {a : α} (h : p s = .ok a s') :
    (p >>= f) s = f a s' := by
  change EStateM.bind p f s = _
  rw [EStateM.bind, h]

theorem bind_of_error {f : α → Rule β} {s s' : State} {e : Stop} (h : p s = .error e s') :
    (p >>= f) s = .error e s' := by
  change EStateM.bind p f s = _
  rw [EStateM.bind, h]

/-- **A rule one level deeper counts up and down again**, whether it succeeds, fails or is too
deep. -/
theorem At.nested (h : At L k p q c) : At L k (Rule.nested p) (fun d => d.enter >>= q) c := by
  have hboth (d : Nesting) : Rule.nested p ⟨c, d.depth, d.limit⟩ = outcome d ((d.enter >>= q) c) ∧
      Moves k c ((d.enter >>= q) c) := by
    unfold Rule.nested
    by_cases hdeep : 0 < d.limit ∧ d.limit < d.depth + 1
    · have henter : d.enter c = .error (.atToken c.peek (.tooDeep d.limit)) c := by
        unfold Nesting.enter
        rw [if_pos hdeep]
        rfl
      rw [bind_of_error (enter_eq d |>.trans (if_pos hdeep)), bind_error henter]
      exact ⟨rfl, .refl c⟩
    · have henter : d.enter c = .ok ⟨d.depth + 1, d.limit⟩ c := by
        unfold Nesting.enter
        rw [if_neg hdeep]
        rfl
      have hp := h.agrees ⟨d.depth + 1, d.limit⟩
      rw [bind_of_ok (enter_eq d |>.trans (if_neg hdeep)), bind_ok henter, tryFinally_leave, hp]
      refine ⟨?_, h.moves ⟨d.depth + 1, d.limit⟩⟩
      cases q ⟨d.depth + 1, d.limit⟩ c <;> rfl
  exact ⟨fun d => (hboth d).1, fun d => (hboth d).2, Law.enter h.law⟩

theorem attempt_eq (p : Rule α) (s : State) : attempt p s = match p s with
    | .ok a s' => .ok (some a) s'
    | .error (.error _) _ => .ok none s
    | .error .bound s' => .error .bound s' := by
  unfold attempt
  simp only [bind, EStateM.bind, get, getThe, MonadStateOf.get, tryCatch, tryCatchThe,
    MonadExceptOf.tryCatch]
  delta EStateM.get EStateM.tryCatch
  dsimp only [EStateM.bind]
  rcases p s with _ | ⟨_ | _, _⟩ <;> rfl

omit [Law L] in
/-- **An attempt that fails puts the state back.** -/
theorem At.attemptOf (h : At L k p q c) (hl : L (fun d => Parser.attempt (q d)) c) :
    At L 0 (Rule.attempt p) (fun d => Parser.attempt (q d)) c := by
  have hboth (d : Nesting) : Rule.attempt p ⟨c, d.depth, d.limit⟩ =
      outcome d (Parser.attempt (q d) c) ∧ Moves 0 c (Parser.attempt (q d) c) := by
    have hm := h.moves d
    rw [attempt_eq, h.agrees]
    unfold Parser.attempt
    cases hq : q d c with
    | error e c' => exact ⟨rfl, .refl c, Nat.le_refl _⟩
    | ok a c' =>
      rw [hq] at hm
      exact ⟨rfl, hm.1, hm.1.ahead_le⟩
  exact ⟨fun d => (hboth d).1, fun d => (hboth d).2, hl⟩

theorem At.attempt {q : Parser α} (h : At L k p (fun _ => q) c) :
    At L 0 (Rule.attempt p) (fun _ => Parser.attempt q) c :=
  h.attemptOf (Law.const _ c)

/-! ### Types and heads -/

theorem at_dotted : (n n' : Nat) → (word : String) → (c : Cursor) → c.ahead < n →
    c.ahead < n' → At L 0 (dotted n word) (fun _ => Grammar.dotted n' word) c
  | n + 1, n' + 1, _, _, _, _ => at_peek <| at_peekNext <| at_ite
      (fun h => (at_advance (ahead_pos (by grind))).bind fun _ _ _ => at_skip.bind fun _ c₂ _ =>
        at_dotted n n' _ c₂ (by omega) (by omega))
      fun _ => at_pure _

mutual

theorem at_typeArgs : (n n' : Nat) → (c : Cursor) → c.ahead < n → c.ahead < n' →
    At L 1 (typeArgs n) (fun _ => Grammar.typeArgs n') c
  | n + 1, n' + 1, c, _, _ => by
    simp only [typeArgs, Grammar.typeArgs]
    exact at_expectOp.bind fun _ c₁ _ => (at_types n n' c₁ (by omega) (by omega)).bind fun _ _ _ =>
      at_expectOp.bind fun _ _ _ => at_pure _

theorem at_types : (n n' : Nat) → (c : Cursor) → c.ahead < n → c.ahead < n' →
    At L 1 (types n) (fun _ => Grammar.types n') c
  | n + 1, n' + 1, c, _, _ => by
    simp only [types, Grammar.types]
    refine (at_expect (by decide)).bind fun t c₁ _ =>
      (at_dotted n n' _ c₁ (by omega) (by omega)).bind fun name c₂ _ => ?_
    refine at_peek (at_join (fun hk _ => ?_) (fun hk _ => at_next hk) fun name c₃ _ => ?_)
    · exact (at_typeArgs n n' c₂ (by omega) (by omega)).bind fun _ c₃ _ =>
        (at_pure _).bind fun _ c₄ _ => hk _ c₄ (by omega)
    · exact at_peek (at_ite (fun h => (at_advance (ahead_pos (by grind))).bind fun _ c₄ _ =>
        (at_types n n' c₄ (by omega) (by omega)).bind fun _ _ _ => at_pure _) fun _ => at_pure _)

end

theorem at_callTypeArgs {n n' : Nat} (hn : c.ahead < n) (hn' : c.ahead < n') :
    At L 1 (callTypeArgs n) (fun _ => Grammar.callTypeArgs n') c :=
  (at_typeArgs n n' c hn hn').bind fun _ _ _ => at_peek (at_ite (fun _ => at_pure _)
    fun _ => at_fail _ _)

theorem at_typeWord {n n' : Nat} (hn : c.ahead < n) (hn' : c.ahead < n') :
    At L 1 (typeWord n) (fun _ => Grammar.typeWord n') c := by
  refine (at_expect (by decide)).bind fun t c₁ _ =>
    (at_dotted n n' _ c₁ (by omega) (by omega)).bind fun name c₂ _ => ?_
  refine at_peek (at_join (fun hk _ => ?_) (fun hk _ => at_next hk) fun name c₃ _ => ?_)
  · exact (at_typeArgs n n' c₂ (by omega) (by omega)).bind fun _ c₃ _ =>
      (at_pure _).bind fun _ c₄ _ => hk _ c₄ (by omega)
  · exact at_peek (at_peekNext (at_ite (fun _ => at_skip.bind fun _ _ _ =>
      at_skip.bind fun _ _ _ => at_pure _) fun _ => at_pure _))

theorem at_typeWords {m m' : Nat} : (n n' : Nat) → (c : Cursor) → c.ahead < n →
    c.ahead < n' → c.ahead < m → c.ahead < m' →
    At L 1 (typeWords m n) (fun _ => Grammar.typeWords m' n') c
  | n + 1, n' + 1, _, _, _, hm, hm' => (at_typeWord hm hm').bind fun _ c₁ _ => at_peek <| at_ite
      (fun _ => (at_typeWords n n' c₁ (by omega) (by omega) (by omega) (by omega)).bind
        fun _ _ _ => at_pure _)
      fun _ => at_pure _

theorem at_typedName {n n' : Nat} (hn : c.ahead < n) (hn' : c.ahead < n') :
    At L 1 (typedName n) (fun _ => Grammar.typedName n') c :=
  (at_typeWords n n' c hn hn' hn hn').bind fun _ _ _ =>
    at_ite (fun _ => at_peek (at_fail _ _)) fun _ => at_pure _

theorem at_declHead {n n' : Nat} (hn : c.ahead < n) (hn' : c.ahead < n')
    (typed : Bool) : At L 1 (declHead n typed) (fun _ => Grammar.declHead n' typed) c :=
  at_peek <| (at_typedName hn hn').bind fun _ _ _ => at_ite (fun _ => at_fail _ _) fun _ =>
    at_expectOp.bind fun _ _ _ => at_pure _

theorem at_names : (n n' : Nat) → (c : Cursor) → c.ahead < n → c.ahead < n' →
    At L 1 (names n) (fun _ => Grammar.names n') c
  | n + 1, n' + 1, _, _, _ => (at_expect (by decide)).bind fun _ c₁ _ => at_peek <| at_ite
      (fun h => (at_advance (ahead_pos (by grind))).bind fun _ c₂ _ =>
        (at_names n n' c₂ (by omega) (by omega)).bind fun _ _ _ => at_pure _)
      fun _ => at_pure _

theorem at_tupleHead {n n' : Nat} (hn : c.ahead < n) (hn' : c.ahead < n') :
    At L 1 (tupleHead n) (fun _ => Grammar.tupleHead n') c :=
  (at_expect (by decide)).bind fun _ c₁ _ => (at_names n n' c₁ (by omega) (by omega)).bind
    fun _ _ _ => (at_expect (by decide)).bind fun _ _ _ => at_expectOp.bind fun _ _ _ => at_pure _

theorem at_importPath : (n n' : Nat) → (c : Cursor) → c.ahead < n → c.ahead < n' →
    At L 0 (importPath n) (fun _ => Grammar.importPath n') c
  | n + 1, n' + 1, c, _, _ => at_lineEnd fun _ hb => at_peek <| at_ite (fun _ => at_pure _) fun h =>
      (at_advance (ahead_pos (hb (by grind)))).bind fun t c₁ _ => at_ite
        (fun _ => (at_importPath n n' c₁ (by omega) (by omega)).bind fun _ _ _ => at_pure _)
        fun _ => at_fail _ _

/-! ### Repetitions -/

theorem at_items {close : Token.Kind} {m : Nat} (h : ∀ c, c.ahead < m → At L 0 p q c) :
    (n n' : Nat) → (c : Cursor) → c.ahead < n → c.ahead < n' → c.ahead < m →
    At L 0 (Parts.items close p n) (fun d => Rules.items close (q d) n') c
  | n + 1, n' + 1, c, _, _, hm => at_peek <| at_ite (fun _ => at_pure _) fun _ =>
      (h c hm).bind fun _ c₁ _ => at_peek <| at_ite
        (fun hk => (at_advance (ahead_pos (by grind))).bind fun _ c₂ _ =>
          (at_items h n n' c₂ (by omega) (by omega) (by omega)).bind fun _ _ _ => at_pure _)
        fun _ => at_pure _

theorem at_lines {m : Nat} (h : ∀ c, c.ahead < m → At L 1 p q c) :
    (n n' : Nat) → (c : Cursor) → c.ahead < n → c.ahead < n' → c.ahead < m →
    At L 0 (Parts.lines p n) (fun d => Rules.lines (q d) n') c
  | n + 1, n' + 1, c, _, _, hm => by
    have hitem : At L 0 (p >>= fun a => Parts.lines p n >>= fun others => pure (a :: others))
        (fun d => q d >>= fun a => Rules.lines (q d) n' >>= fun others => pure (a :: others)) c :=
      (h c hm).bind fun _ c₁ _ =>
        (at_lines h n n' c₁ (by omega) (by omega) (by omega)).bind fun _ _ _ => at_pure _
    refine at_peek ?_
    cases hk : c.peek.kind
    case newline =>
      exact (at_advance (ahead_pos (by simp [hk]))).bind fun _ c₁ _ =>
        at_lines h n n' c₁ (by omega) (by omega) (by omega)
    case dedent => exact at_skip.bind fun _ _ _ => at_pure _
    case eof => exact at_pure _
    all_goals exact hitem

theorem at_chain {p : Rule Expr} {q : Nesting → Parser Expr} {m : Nat}
    (h : ∀ c, c.ahead ≤ m → At L 1 p q c) (ops : List BinaryOp) :
    (n n' : Nat) → (left : Expr) → (c : Cursor) → c.ahead < n → c.ahead < n' → c.ahead ≤ m →
    At L 0 (Parts.chain p ops n left) (fun d => Rules.chain (q d) ops n' left) c
  | n + 1, n' + 1, _, _, _, _, _ => at_peek <| at_ite
      (fun hop => (at_advance (ahead_of_any hop)).bind fun _ c₁ _ =>
        (h c₁ (by omega)).bind fun _ c₂ _ =>
          at_chain h ops n n' _ c₂ (by omega) (by omega) (by omega))
      fun _ => at_pure _

/-! ### Rules -/

/-- A statement that starts with a name but with no head of a function. -/
def Parts.namedStatement (r : Parts) : Rule Stmt := do
  match ← attempt (declHead r.fuel true) with
  | some head => r.declValue head
  | none => r.simpleStatement

/-- A statement that starts with a name. -/
def Parts.identifierStatement (r : Parts) : Rule Stmt := do
  match ← attempt r.funcHead with
  | some head => r.funcBody head false
  | none => r.namedStatement

namespace Parts

/-- With fewer tokens left than a number that the bounds allow, the parts are those of the other
form. A statement needs a token more, since a passage from it to its expression reads none. -/
structure Mirrors (L : {α : Type} → (Nesting → Parser α) → Cursor → Prop) (r : Parts) (v : Rules)
    (m : Nat) : Prop where
  fuel : m ≤ r.fuel
  fuel' : m ≤ v.fuel
  expr : ∀ c, c.ahead < m → At L 1 r.expr v.expr c
  stmt : ∀ c, c.ahead + 1 < m → At L 1 r.stmt v.stmt c

namespace Mirrors

variable {r : Parts} {v : Rules} {m : Nat} (h : r.Mirrors L v m)

include h

omit [Law L] in
theorem lt_fuel (hc : c.ahead < m) : c.ahead < r.fuel := Nat.lt_of_lt_of_le hc h.fuel

omit [Law L] in
theorem lt_fuel' (hc : c.ahead < m) : c.ahead < v.fuel := Nat.lt_of_lt_of_le hc h.fuel'

theorem items {close : Token.Kind} (hi : ∀ c, c.ahead < m → At L k p q c)
    (hc : c.ahead < m) :
    At L 0 (items close p r.fuel) (fun d => Rules.items close (q d) v.fuel) c :=
  at_items (fun c hc => (hi c hc).mono (Nat.zero_le k)) _ _ c (h.lt_fuel hc) (h.lt_fuel' hc) hc

theorem lines (hk : k ≤ m) (hi : ∀ c, c.ahead < k → At L 1 p q c) (hc : c.ahead < k) :
    At L 0 (lines p r.fuel) (fun d => Rules.lines (q d) v.fuel) c :=
  at_lines hi _ _ c (h.lt_fuel (by omega)) (h.lt_fuel' (by omega)) hc

/-! ### Lists, lines and blocks -/

theorem arg (c : Cursor) (hc : c.ahead < m) : At L 1 r.arg v.arg c :=
  at_peek <| at_peekNext <| at_ite
    (fun _ => at_skip.bind fun _ _ _ => at_skip.bind fun _ c₂ _ =>
      (h.expr c₂ (by omega)).bind fun _ _ _ => at_pure _)
    fun _ => (h.expr c hc).bind fun _ _ _ => at_pure _

theorem args (hc : c.ahead ≤ m) : At L 1 r.args v.args c :=
  (at_expect (by decide)).bind fun _ c₁ _ => (h.items h.arg (by omega)).bind fun _ _ _ =>
    (at_expect (by decide)).bind fun _ _ _ => at_pure _

theorem simple (hc : c.ahead < m) : At L 1 r.simple v.simple c := by
  refine at_peek <| (h.expr c hc).bind fun e c₁ _ => at_peek <| at_ite (fun _ => ?_) fun _ =>
    at_ite (fun _ => ?_) fun _ => at_pure _
  · refine at_skip.bind fun _ c₂ _ => (h.expr c₂ (by omega)).bind fun _ _ _ => ?_
    cases e <;> first | exact at_pure _ | exact at_fail _ _
  · refine at_skip.bind fun _ c₂ _ => (h.expr c₂ (by omega)).bind fun _ _ _ => ?_
    cases e <;> first | exact at_pure _ | exact at_fail _ _

theorem block (hc : c.ahead ≤ m) : At L 1 r.block v.block c :=
  At.nested <| (at_expect (by decide)).bind fun _ c₁ _ => (at_expect (by decide)).bind fun _ c₂ _ =>
    h.lines (Nat.sub_le m 1) (fun c hc => h.stmt c (by omega)) (by omega)

theorem body (hc : c.ahead < m) : At L 1 r.body v.body c :=
  at_peek <| at_ite (fun _ => h.block (Nat.le_of_lt hc)) fun _ =>
    (h.simple hc).bind fun _ _ _ => at_pure _

/-! ### Switch and if -/

theorem arm (c : Cursor) (hc : c.ahead < m) : At L 1 r.arm v.arm c := by
  refine at_peek <| at_join (fun hk _ => at_next hk) (fun hk _ => ?_) fun _ c₁ _ => ?_
  · exact (h.expr c hc).bind fun _ c₁ _ => (hk _ c₁ (by omega)).mono (Nat.zero_le 1)
  · exact at_expectOp.bind fun _ c₂ _ => (h.body (by omega)).bind fun _ _ _ => at_end _

theorem switchParts (hc : c.ahead ≤ m) : At L 1 r.switchParts v.switchParts c := by
  refine at_expectKeyword.bind fun _ c₁ _ => at_peek <|
    at_join (fun hk _ => at_next hk) (fun hk _ => ?_) fun _ c₂ _ => At.nested ?_
  · exact (h.expr c₁ (by omega)).bind fun _ c₂ _ => hk _ c₂ (by omega)
  · exact (at_expect (by decide)).bind fun _ c₃ _ => (at_expect (by decide)).bind fun _ c₄ _ =>
      (h.lines (Nat.le_refl m) h.arm (by omega)).bind fun _ _ _ => at_pure _

theorem ifParts : (n n' : Nat) → (c : Cursor) → 0 < c.ahead → c.ahead ≤ n →
    c.ahead ≤ n' → c.ahead ≤ m → At L 1 (r.ifParts n) (fun d => v.ifParts d n') c
  | 0, _, _, hk, hn, _, _ => absurd hk (Nat.not_lt.2 hn)
  | _ + 1, 0, _, hk, _, hn', _ => absurd hk (Nat.not_lt.2 hn')
  | n + 1, n' + 1, _, _, _, _, _ => at_expectKeyword.bind fun _ c₁ _ =>
      (h.expr c₁ (by omega)).bind fun _ c₂ _ => (h.block (by omega)).bind fun _ c₃ _ =>
        at_peek <| at_ite
          (fun hk => (at_advance (ahead_of_isKeyword hk)).bind fun _ c₄ _ => at_peek <| at_ite
            (fun hif => (ifParts n n' c₄ (ahead_of_isKeyword hif) (by omega) (by omega)
              (by omega)).bind fun _ _ _ => at_pure _)
            fun _ => (h.block (by omega)).bind fun _ _ _ => at_pure _)
          fun _ => at_pure _

/-! ### Expressions -/

theorem primary (hc : c.ahead ≤ m) : At L 1 r.primary v.primary c := by
  refine at_peek ?_
  cases hk : c.peek.kind
  case na =>
    exact (at_advance (ahead_pos (by simp [hk]))).bind fun _ _ _ => at_peek <|
      at_ite (fun _ => at_pure _) fun _ => at_pure _
  case lparen =>
    exact (at_advance (ahead_pos (by simp [hk]))).bind fun _ c₁ _ =>
      (h.expr c₁ (by omega)).bind fun _ _ _ => (at_expect (by decide)).bind fun _ _ _ => at_pure _
  case lbracket =>
    exact (at_advance (ahead_pos (by simp [hk]))).bind fun _ c₁ _ =>
      (h.items h.expr (by omega)).bind fun _ _ _ =>
        (at_expect (by decide)).bind fun _ _ _ => at_pure _
  case keyword =>
    exact at_ite (fun _ => (h.switchParts hc).bind fun _ _ _ => at_pure _) fun _ =>
      at_ite (fun _ => (h.ifParts _ _ c (ahead_pos (by simp [hk])) (Nat.le_trans hc h.fuel)
        (Nat.le_trans hc h.fuel') hc).bind fun _ _ _ => at_pure _) fun _ => at_fail _ _
  case number | string | boolean | color | identifier =>
    exact (at_advance (ahead_pos (by simp [hk]))).bind fun _ _ _ => at_pure _
  all_goals exact at_fail _ _

theorem suffixes : (n n' : Nat) → (e : Expr) → (c : Cursor) → c.ahead < n →
    c.ahead < n' → c.ahead < m →
    At L 0 (r.suffixes n e) (fun d => v.suffixes d n' e) c
  | n + 1, n' + 1, e, c, _, _, hm => by
    refine at_peek ?_
    cases hk : c.peek.kind
    case lparen =>
      exact (h.args (by omega)).bind fun _ c₁ _ =>
        suffixes n n' _ c₁ (by omega) (by omega) (by omega)
    case dot =>
      exact (at_advance (ahead_pos (by simp [hk]))).bind fun _ c₁ _ => at_peek <| at_ite
        (fun _ => at_skip.bind fun _ c₂ _ => suffixes n n' _ c₂ (by omega) (by omega) (by omega))
        fun _ => at_fail _ _
    case lbracket =>
      exact (at_advance (ahead_pos (by simp [hk]))).bind fun _ c₁ _ =>
        (h.expr c₁ (by omega)).bind fun _ _ _ => (at_expect (by decide)).bind fun _ c₃ _ =>
          suffixes n n' _ c₃ (by omega) (by omega) (by omega)
    all_goals
      refine at_ite (fun _ => (at_callTypeArgs (h.lt_fuel hm) (h.lt_fuel' hm)).attempt.bind
        fun o c₁ _ => ?_) fun _ => at_pure e
      cases o with
      | none => exact at_pure e
      | some types =>
        exact (h.args (by omega)).bind fun _ c₂ _ =>
          suffixes n n' _ c₂ (by omega) (by omega) (by omega)

theorem suffixed (hc : c.ahead ≤ m) : At L 1 r.suffixed v.suffixed c :=
  (h.primary hc).bind fun e c₁ _ => h.suffixes _ _ e c₁ (h.lt_fuel (by omega))
    (h.lt_fuel' (by omega)) (by omega)

theorem unary : (n n' : Nat) → (c : Cursor) → c.ahead < n → c.ahead ≤ n' →
    c.ahead ≤ m → At L 1 (r.unary n) (v.unary n') c
  | n + 1, 0, ⟨past, []⟩, _, _, _ => by
    -- at the end of input the rule looks for an operand and finds none
    cases past <;> exact ⟨fun _ => rfl, fun _ => .refl _, Law.const unexpected _⟩
  | n + 1, n' + 1, c, _, _, hm => at_peek <| at_ite
      (fun hop => At.nested <| (at_advance (ahead_of_any hop)).bind fun _ c₁ _ =>
        (unary n n' c₁ (by omega) (by omega) (by omega)).bind fun _ _ _ => at_pure _)
      fun _ => h.suffixed hm

theorem binary : (levels : List (List BinaryOp)) → (c : Cursor) → c.ahead ≤ m →
    At L 1 (r.binary levels) (fun d => v.binary d levels) c
  | [], c, hc => h.unary _ _ c (Nat.lt_succ_of_le (Nat.le_trans hc h.fuel))
      (Nat.le_trans hc h.fuel') hc
  | ops :: tighter, c, hc => (binary tighter c hc).bind fun left c₁ _ =>
      at_chain (binary tighter) ops _ _ left c₁ (h.lt_fuel (by omega)) (h.lt_fuel' (by omega))
        (by omega)

theorem ternary (hc : c.ahead ≤ m) : At L 1 r.ternary v.ternary c :=
  (h.binary levels c hc).bind fun _ c₁ _ => at_peek <| at_ite
    (fun _ => at_skip.bind fun _ c₂ _ => (h.expr c₂ (by omega)).bind fun _ c₃ _ =>
      (at_expect (by decide)).bind fun _ c₄ _ => (h.expr c₄ (by omega)).bind fun _ _ _ => at_pure _)
    fun _ => at_pure _

theorem expression (hc : c.ahead ≤ m) : At L 1 r.expression v.expression c :=
  (h.ternary hc).nested

/-! ### Declarations and loops -/

theorem declValue (head : DeclHead) (hc : c.ahead < m) :
    At L 1 (r.declValue head) (fun d => v.declValue d head) c :=
  (h.expr c hc).bind fun _ _ _ => at_end _

theorem param (c : Cursor) (hc : c.ahead < m) : At L 1 r.param v.param c :=
  (at_typedName (h.lt_fuel hc) (h.lt_fuel' hc)).bind fun _ c₁ _ => at_peek <| at_ite
    (fun _ => at_skip.bind fun _ c₂ _ => (h.expr c₂ (by omega)).bind fun _ _ _ => at_pure _)
    fun _ => at_pure _

theorem funcHead (hc : c.ahead ≤ m) : At L 1 r.funcHead v.funcHead c :=
  (at_expect (by decide)).bind fun _ c₁ _ => (at_expect (by decide)).bind fun _ c₂ _ =>
    (h.items h.param (by omega)).bind fun _ _ _ => (at_expect (by decide)).bind fun _ _ _ =>
      at_expectOp.bind fun _ _ _ => at_pure _

theorem funcBody (head : FuncHead) (isMethod : Bool) (hc : c.ahead < m) :
    At L 1 (r.funcBody head isMethod) (fun d => v.funcBody d head isMethod) c :=
  (h.body hc).bind fun _ _ _ => at_end _

theorem field (c : Cursor) (hc : c.ahead < m) : At L 1 r.field v.field c := by
  refine at_peek <| at_option at_skip fun c₁ _ => ?_
  refine (at_typedName (h.lt_fuel (by omega)) (h.lt_fuel' (by omega))).bind fun _ c₂ _ =>
    at_peek <| at_join (fun hk _ => ?_) (fun hk _ => at_next hk) fun _ _ _ => at_end _
  exact at_skip.bind fun _ c₃ _ => (h.expr c₃ (by omega)).bind fun _ c₄ _ => hk _ c₄ (by omega)

theorem typeDecl (hc : c.ahead ≤ m) : At L 1 r.typeDecl v.typeDecl c :=
  at_skip.bind fun _ c₁ _ => (at_expect (by decide)).bind fun _ c₂ _ =>
    (at_expect (by decide)).bind fun _ c₃ _ => (at_expect (by decide)).bind fun _ c₄ _ =>
      (h.lines (Nat.le_refl m) h.field (by omega)).bind fun _ _ _ => at_pure _

theorem importLib (hk : 0 < c.ahead) (hc : c.ahead ≤ m) :
    At L 1 r.importLib (fun _ => v.importLib) c := by
  refine (at_advance hk).bind fun _ c₁ _ => at_peek <|
    at_join (fun hk _ => at_skip.bind fun _ c₂ _ => (at_pure _).bind fun a c₃ _ =>
      hk a c₃ (by omega)) (fun hk _ => ?_) fun path c₂ _ => ?_
  · exact (at_importPath _ _ c₁ (h.lt_fuel (by omega)) (h.lt_fuel' (by omega))).bind fun _ c₂ _ =>
      hk _ c₂ (by omega)
  · exact at_ite (fun _ => at_peek (at_fail _ _)) fun _ => at_peek <| at_ite
      (fun _ => at_skip.bind fun _ _ _ => (at_expect (by decide)).bind fun _ _ _ => at_end _)
      fun _ => at_end _

theorem forIn (pos : Pos) (index item : String) (hc : c.ahead ≤ m) :
    At L 1 (r.forIn pos index item) (fun d => v.forIn d pos index item) c :=
  at_expectKeyword.bind fun _ c₁ _ => (h.expr c₁ (by omega)).bind fun _ _ _ =>
    (h.block (by omega)).bind fun _ _ _ => at_end _

theorem forLoop (hc : c.ahead ≤ m) : At L 1 r.forLoop v.forLoop c := by
  refine at_skip.bind fun start c₁ _ => at_peek <| at_ite (fun _ => ?_) fun _ => ?_
  · exact at_skip.bind fun _ c₂ _ => (at_expect (by decide)).bind fun _ _ _ =>
      (at_expect (by decide)).bind fun _ _ _ => (at_expect (by decide)).bind fun _ _ _ =>
        (at_expect (by decide)).bind fun _ _ _ => (h.forIn _ _ _ (by omega)).mono (Nat.zero_le 1)
  refine (at_expect (by decide)).bind fun name c₂ _ => at_peek <| at_ite
    (fun _ => (h.forIn _ _ _ (by omega)).mono (Nat.zero_le 1)) fun _ => ?_
  refine at_expectOp.bind fun _ c₃ _ => (h.expr c₃ (by omega)).bind fun _ c₄ _ =>
    at_expectKeyword.bind fun _ c₅ _ => (h.expr c₅ (by omega)).bind fun _ c₆ _ => at_peek <|
      at_join (fun hk _ => ?_) (fun hk _ => at_next hk) fun _ c₇ _ => ?_
  · exact at_skip.bind fun _ c₇ _ => (h.expr c₇ (by omega)).bind fun _ c₈ _ => hk _ c₈ (by omega)
  · exact (h.block (by omega)).bind fun _ _ _ => at_end _

/-! ### Statements -/

theorem keywordStatement (hk : 0 < c.ahead) (hc : c.ahead < m) :
    At L 1 r.keywordStatement v.keywordStatement c := by
  have hle := Nat.le_of_lt hc
  refine at_peek ?_
  generalize c.peek.lexeme = word
  split
  · exact (h.ifParts _ _ c hk (Nat.le_trans hle h.fuel) (Nat.le_trans hle h.fuel') hle).bind
      fun _ _ _ => at_end _
  · exact (at_advance hk).bind fun _ c₁ _ => (h.expr c₁ (by omega)).bind fun _ c₂ _ =>
      (h.block (by omega)).bind fun _ _ _ => at_end _
  · exact h.forLoop hle
  · exact (h.switchParts hle).bind fun _ _ _ => at_end _
  · refine (at_advance hk).bind fun _ c₁ _ => at_lineEnd fun _ _ =>
      at_join (fun hk _ => at_next hk) (fun hk _ => ?_) fun _ _ _ => at_end _
    exact (h.expr c₁ (by omega)).bind fun _ c₂ _ => hk _ c₂ (by omega)
  · exact (at_advance hk).bind fun _ _ _ => at_end _
  · exact (at_advance hk).bind fun _ _ _ => at_end _
  iterate 2
    · exact (at_advance hk).bind fun _ c₁ _ =>
        (at_declHead (h.lt_fuel (by omega)) (h.lt_fuel' (by omega)) _).bind fun _ c₂ _ =>
          (h.declValue _ (by omega)).mono (Nat.zero_le 1)
  · exact h.typeDecl hle
  · exact h.importLib hk hle
  · exact (at_advance hk).bind fun _ c₁ _ => (h.stmt c₁ (by omega)).bind fun _ _ _ =>
      at_ite (fun _ => at_pure _) fun _ => at_fail _ _
  · exact (at_advance hk).bind fun _ c₁ _ => (h.funcHead (by omega)).bind fun _ c₂ _ =>
      (h.funcBody _ true (by omega)).mono (Nat.zero_le 1)
  · refine (congrArg (At L 1 _ · c) (funext fun d => ?_)).mpr (at_fail c.peek (.keyword word))
    first
    | rfl
    | split <;> first | contradiction | rfl

theorem simpleStatement (hc : c.ahead < m) : At L 1 r.simpleStatement v.simpleStatement c :=
  (h.simple hc).bind fun _ _ _ => at_end _

theorem namedStatement (hc : c.ahead < m) : At L 1 r.namedStatement v.namedStatement c := by
  refine (at_declHead (h.lt_fuel hc) (h.lt_fuel' hc) _).attempt.bind fun head c₁ _ => ?_
  cases head with
  | some head => exact h.declValue head (by omega)
  | none => exact h.simpleStatement (by omega)

omit [Law L] in
theorem free : r.Mirrors Free v m :=
  { h with
    expr := fun c hc => { h.expr c hc with law := trivial }
    stmt := fun c hc => { h.stmt c hc with law := trivial } }

/-- The head of a function may hold default values, so the law is not that of an attempt. -/
theorem statement (hc : c.ahead < m) (hi : L v.identifierStatement c) :
    At L 1 r.statement v.statement c := by
  refine at_peek ?_
  cases hk : c.peek.kind
  case keyword => exact h.keywordStatement (ahead_pos (by simp [hk])) hc
  case lbracket =>
    refine (at_tupleHead (h.lt_fuel hc) (h.lt_fuel' hc)).attempt.bind fun head c₁ _ => ?_
    cases head with
    | some head => exact h.declValue head (by omega)
    | none => exact h.simpleStatement (by omega)
  case identifier =>
    have hplain : At Free 1 r.identifierStatement v.identifierStatement c := by
      refine ((h.free.funcHead (Nat.le_of_lt hc)).attemptOf trivial).bind fun head c₁ _ => ?_
      cases head with
      | some head => exact h.free.funcBody head false (by omega)
      | none => exact h.free.namedStatement (by omega)
    exact { hplain with law := hi }
  all_goals exact h.simpleStatement hc

end Mirrors

end Parts

/-! ### Closing the circle -/

/-- The parts of the closed grammar, with a bound. -/
def partsAt (n : Nat) : Parts := ⟨n, exprAt n, stmtAt n⟩

/-- **The closed grammar is the one of the other form**, whatever the bounds are past the number of
tokens left, and it follows every law, up to the attempt to read the head of a function. -/
theorem mirrors_at (hi : ∀ {m n n' : Nat} {c : Cursor}, (partsAt n).Mirrors L (rulesAt n') m →
      c.ahead < m → L (rulesAt n').identifierStatement c) :
    (m n n' : Nat) → m ≤ n → m ≤ n' → (partsAt n).Mirrors L (rulesAt n') m
  | 0, n, n', _, _ => ⟨Nat.zero_le n, Nat.zero_le n', nofun, nofun⟩
  | m + 1, n + 1, n' + 1, hn, hn' =>
    have ih := mirrors_at hi m n n' (Nat.le_of_succ_le_succ hn) (Nat.le_of_succ_le_succ hn')
    ⟨hn, hn', fun _ hc => ih.expression (Nat.le_of_lt_succ hc), fun _ hc =>
      ih.statement (Nat.lt_of_succ_lt_succ hc) (hi ih (Nat.lt_of_succ_lt_succ hc))⟩

end Rule

end Pine
