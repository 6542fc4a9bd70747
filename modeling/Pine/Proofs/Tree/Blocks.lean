import Pine.Proofs.Tree.Named

/-!
# Names that blocks introduce

A block of the source introduces names by declarations of variables, by imports and by types. A name
can be introduced again as a variable, which is an assignment then. This does not hold of imports
and types: if one of them takes a name that is taken already, then there are two declarations of it.
Such names *clash*. A block is *distinct* up to names `C` if no other names clash in it.
-/

namespace Pine

open List

/-! ### Introduced names -/

/-- How a name is introduced. -/
inductive NameKind where
  /-- As a variable. -/
  | value
  /-- As a library. -/
  | library
  /-- As a type. -/
  | record
  deriving DecidableEq, Repr

/-- The names that a statement introduces in the block around it. -/
def Stmt.introduces : Stmt → List (NameKind × String)
  | .decl _ _ name names _ _ _ => (Stmt.declared name names).map (.value, ·)
  | .importLib _ _ localName => [(.library, localName)]
  | .typeDecl _ name _ => [(.record, name)]
  | .exported _ inner => inner.introduces
  | _ => []

/-- The names that statements introduce in the block around them. -/
def introducedNames (ss : List Stmt) : List (NameKind × String) := ss.flatMap Stmt.introduces

theorem introducedNames_cons (s : Stmt) (ss : List Stmt) :
    introducedNames (s :: ss) = s.introduces ++ introducedNames ss := flatMap_cons

/-- A name clashes with the same name before it if it is not a variable, or if a type had it
before. -/
def Clash (p q : NameKind × String) : Prop := p.2 = q.2 ∧ (p.1 = .record ∨ q.1 ≠ .value)

instance : DecidableRel Clash :=
  fun p q => inferInstanceAs (Decidable (p.2 = q.2 ∧ (p.1 = .record ∨ q.1 ≠ .value)))

/-- The names that clash with a name behind them. -/
def clashes : List (NameKind × String) → List String
  | [] => []
  | p :: rest => if ∃ q ∈ rest, Clash p q then p.2 :: clashes rest else clashes rest

section

variable {C : String → Prop}

/-- Of two names, the second may come after the first: they clash only if the name is one of the
exceptions `C`. -/
def MayFollow (C : String → Prop) (p q : NameKind × String) : Prop := Clash p q → C p.2

/-- The names that statements introduce may follow each other. -/
def DistinctStmts (C : String → Prop) (ss : List Stmt) : Prop :=
  (introducedNames ss).Pairwise (MayFollow C)

/-- Only the names that clash are repeated. -/
theorem pairwise_of_clashes : (names : List (NameKind × String)) → (∀ x ∈ clashes names, C x) →
    names.Pairwise (MayFollow C)
  | [], _ => .nil
  | p :: rest, h => by
    by_cases hclash : ∃ q ∈ rest, Clash p q
    · rw [clashes, if_pos hclash] at h
      obtain ⟨hp, hrest⟩ := forall_mem_cons.1 h
      exact pairwise_cons.2 ⟨fun _ _ _ => hp, pairwise_of_clashes rest hrest⟩
    · rw [clashes, if_neg hclash] at h
      exact pairwise_cons.2
        ⟨fun q hq hpq => absurd ⟨q, hq, hpq⟩ hclash, pairwise_of_clashes rest h⟩

theorem distinctStmts_cons {s : Stmt} {ss : List Stmt} (h : DistinctStmts C (s :: ss)) :
    DistinctStmts C ss ∧ ∀ p ∈ s.introduces, ∀ q ∈ introducedNames ss, MayFollow C p q := by
  rw [DistinctStmts, introducedNames_cons, pairwise_append] at h
  exact h.2

/-! ### Blocks -/

/-- The blocks of a node. -/
def Node.blocks : Node → List (List Stmt)
  | .stmt (.func _ _ _ body _) | .stmt (.whileLoop _ _ body) | .stmt (.forCount _ _ _ _ _ body _)
  | .stmt (.forIn _ _ _ _ body) => [body]
  | .stmt (.ifElse _ _ yes no) | .expr (.ifElse _ _ yes no) => [yes, no]
  | .stmt (.switch _ _ arms) | .expr (.switch _ _ arms) => arms.map Arm.body
  | _ => []

/-- The names that stand together in the head of a loop. -/
def Node.headNames : Node → List String
  | .stmt (.forIn _ index item _ _) => [index, item]
  | _ => []

/-- The names that clash in the blocks of a node. -/
def Node.clashes (n : Node) : List String :=
  n.blocks.flatMap (fun b => Pine.clashes (introducedNames b)) ++
    Pine.clashes (n.headNames.map (.library, ·))

/-- The names that clash in a program, the price series that it reads being introduced in front of
it. -/
def Program.clashes (sources : List String) (program : Program) : List String :=
  Pine.clashes (sources.map (.library, ·) ++ introducedNames program) ++
    program.nodes.flatMap Node.clashes

/-- The blocks of a node are distinct, and so are the names in the head of a loop. -/
def Node.Distinct (C : String → Prop) (n : Node) : Prop :=
  (∀ b ∈ n.blocks, DistinctStmts C b) ∧ n.headNames.Pairwise fun a b => a = b → C a

/-- All blocks of a program are distinct. -/
def Program.Distinct (C : String → Prop) (program : Program) : Prop :=
  DistinctStmts C program ∧ Each (Node.Distinct C) program.nodes

theorem Node.distinct_of_clashes {n : Node} (h : ∀ x ∈ n.clashes, C x) : n.Distinct C := by
  obtain ⟨hblocks, hheads⟩ := forall_mem_append.1 h
  refine ⟨fun b hb => pairwise_of_clashes _ fun x hx => ?_, ?_⟩
  · exact hblocks x (mem_flatMap_of_mem hb hx)
  · exact (pairwise_map.1 (pairwise_of_clashes _ hheads)).imp fun hab heq =>
      hab ⟨heq, .inr nofun⟩

namespace Program

variable {sources : List String} {program : Program}

/-- **A program is distinct up to the names that clash.** -/
theorem distinct_of_clashes (h : ∀ x ∈ program.clashes sources, C x) : program.Distinct C := by
  obtain ⟨htop, hnodes⟩ := forall_mem_append.1 h
  refine ⟨(pairwise_append.1 (pairwise_of_clashes _ htop)).2.1, fun n hn => ?_⟩
  exact Node.distinct_of_clashes fun x hx => hnodes x (mem_flatMap_of_mem hn hx)

/-- What a program introduces may follow the price series up to the names that clash. -/
theorem mayFollow_of_clashes (h : ∀ x ∈ program.clashes sources, C x) :
    ∀ x ∈ sources, ∀ q ∈ introducedNames program, MayFollow C (.library, x) q := by
  intro x hx
  have htop := pairwise_of_clashes _ (forall_mem_append.1 h).1
  exact (pairwise_append.1 htop).2.2 _ (mem_map_of_mem hx)

end Program

/-! ### Keying and pruning -/

theorem Stmt.introduces_keyed : (s : Stmt) → (n : Nat) → (s.keyed n).1.introduces = s.introduces
  | .exported _ inner, n => inner.introduces_keyed n
  | .missing, _ | .decl .., _ | .assign .., _ | .func .., _ | .ifElse .., _ | .whileLoop .., _
  | .forCount .., _ | .forIn .., _ | .ret .., _ | .brk .., _ | .cont .., _ | .switch .., _
  | .typeDecl .., _ | .importLib .., _ | .expr .., _ => rfl

theorem introducedNames_keyed (ss : List Stmt) (n : Nat) :
    introducedNames (keyedStmts ss n).1 = introducedNames ss := by
  induction ss generalizing n with
  | nil => rfl
  | cons s ss ih =>
    rw [introducedNames_cons s, ← s.introduces_keyed n, ← ih]
    exact introducedNames_cons ..

theorem distinctStmts_keyed {ss : List Stmt} (h : DistinctStmts C ss) (n : Nat) :
    DistinctStmts C (keyedStmts ss n).1 := by
  rwa [DistinctStmts, introducedNames_keyed]

theorem distinctStmts_keyedArms : (arms : List Arm) → (∀ a ∈ arms, DistinctStmts C a.body) →
    ∀ n, ∀ a ∈ (keyedArms arms n).1, DistinctStmts C a.body
  | [], _, _ => nofun
  | .mk _ _ :: arms, h, _ => by
    obtain ⟨hbody, harms⟩ := forall_mem_cons.1 h
    exact forall_mem_cons.2
      ⟨distinctStmts_keyed hbody _, distinctStmts_keyedArms arms harms _⟩

/-- Keying leaves the names that blocks introduce as they are. -/
theorem Node.keyless_distinct : Keyless (Node.Distinct C) := by
  intro node n ⟨hblocks, hheads⟩
  have hone {body : List Stmt} (h : ∀ b ∈ [body], DistinctStmts C b) (n : Nat) :
      ∀ b ∈ [(keyedStmts body n).1], DistinctStmts C b :=
    forall_mem_singleton.2 (distinctStmts_keyed (forall_mem_singleton.1 h) n)
  have htwo {yes no : List Stmt} (h : ∀ b ∈ [yes, no], DistinctStmts C b) (n m : Nat) :
      ∀ b ∈ [(keyedStmts yes n).1, (keyedStmts no m).1], DistinctStmts C b := by
    obtain ⟨hyes, hno⟩ := forall_mem_cons.1 h
    exact forall_mem_cons.2 ⟨distinctStmts_keyed hyes n, hone hno m⟩
  have harms {arms : List Arm} (h : ∀ b ∈ arms.map Arm.body, DistinctStmts C b) (n : Nat) :
      ∀ b ∈ (keyedArms arms n).1.map Arm.body, DistinctStmts C b :=
    forall_mem_map.2 (distinctStmts_keyedArms arms (forall_mem_map.1 h) n)
  cases node with
  | program ss => exact ⟨nofun, .nil⟩
  | expr e =>
    cases e with
    | ifElse => exact ⟨htwo hblocks _ _, hheads⟩
    | switch => exact ⟨harms hblocks _, hheads⟩
    | _ => exact ⟨nofun, .nil⟩
  | stmt s =>
    cases s with
    | func | whileLoop | forCount | forIn => exact ⟨hone hblocks _, hheads⟩
    | ifElse => exact ⟨htwo hblocks _ _, hheads⟩
    | switch => exact ⟨harms hblocks _, hheads⟩
    | _ => exact ⟨nofun, .nil⟩

namespace Program

variable {program : Program}

theorem introducedNames_prune (program : Program) :
    introducedNames program.prune = introducedNames program := by
  have hfilter (keep : Stmt → Bool) (hkeep : ∀ s, keep s = false → s.introduces = [])
      (ss : List Stmt) : introducedNames (ss.filter keep) = introducedNames ss := by
    induction ss with
    | nil => rfl
    | cons s ss ih =>
      rw [introducedNames_cons, ← ih]
      cases hs : keep s with
      | true => rw [filter_cons_of_pos hs, introducedNames_cons]
      | false =>
        rw [filter_cons_of_neg (by simp [hs]), hkeep s hs, nil_append]
  refine hfilter _ (fun s hs => ?_) program
  cases s with
  | func => rfl
  | _ => cases hs

/-- **Keying leaves blocks distinct.** -/
theorem distinct_keyed (h : program.Distinct C) : program.keyed.Distinct C :=
  ⟨distinctStmts_keyed h.1 1, each_keyedStmts Node.keyless_distinct program h.2 1⟩

/-- **Dropping dead functions leaves blocks distinct.** -/
theorem distinct_prune (h : program.Distinct C) : program.prune.Distinct C := by
  refine ⟨?_, each_prune h.2⟩
  rw [DistinctStmts, introducedNames_prune]
  exact h.1

end Program

end

end Pine
