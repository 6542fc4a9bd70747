import Pine.Proofs.Script.Names
import Pine.Proofs.Tree.Keys
import Pine.Tree.Live

/-!
# Well-named trees

A tree is *well-named* if every name in it is a word and every operator in it is one of the
language. A positional argument and a loop without an index have the empty name instead. The local
name of an import is left open: what holds of it is a parameter, relative to the path.

The condition is about single nodes, so it is stated of the nodes that a walk lists.
-/

namespace Pine

/-! ### Names and operators of a node -/

/-- The names of a node are words and its operator is one of the language; the local name that an
imported library gets has the property `L` relative to the path. -/
def Node.Named (L : String → String → Prop) : Node → Prop
  | .expr (.name _ name) => Script.isNameShaped name = true
  | .expr (.member _ _ property) => Script.isNameShaped property = true
  | .expr (.index _ (.name _ name) _) => Script.isNameShaped name = true
  | .expr (.call _ _ _ args _) => ∀ a ∈ args, a.name = "" ∨ Script.isNameShaped a.name = true
  | .expr (.binary _ op _ _) => op ∈ BinaryOp.known
  | .stmt (.decl _ _ name names _ _ _) =>
    ∀ n ∈ Stmt.declared name names, Script.isNameShaped n = true
  | .stmt (.assign _ _ op _) => op ∈ AssignOp.known
  | .stmt (.func _ name params _ _) =>
    Script.isNameShaped name = true ∧ ∀ p ∈ params, Script.isNameShaped p.name = true
  | .stmt (.forCount _ counter _ _ _ _ _) => Script.isNameShaped counter = true
  | .stmt (.forIn _ index item _ _) =>
    (index = "" ∨ Script.isNameShaped index = true) ∧ Script.isNameShaped item = true
  | .stmt (.typeDecl _ name fields) =>
    Script.isNameShaped name = true ∧ ∀ f ∈ fields, Script.isNameShaped f.name = true
  | .stmt (.importLib _ path localName) => L path localName
  | _ => True

/-- The local name of an import can be bound in a script, whatever the path. -/
def IsBindable (_path localName : String) : Prop := Script.isIdentifier localName = true

variable (L : String → String → Prop)

/-- A well-named expression. -/
abbrev Expr.Named (e : Expr) : Prop := Each (Node.Named L) (e.walk fun _ => .parts)

/-- Well-named expressions. -/
abbrev NamedExprs (es : List Expr) : Prop := Each (Node.Named L) (walkExprs (fun _ => .parts) es)

/-- Arguments with well-named values. -/
abbrev NamedArgs (args : List Arg) : Prop := Each (Node.Named L) (walkArgs (fun _ => .parts) args)

/-- Well-named arms. -/
abbrev NamedArms (arms : List Arm) : Prop := Each (Node.Named L) (walkArms (fun _ => .parts) arms)

/-- Fields with well-named initial values. -/
abbrev NamedFields (fields : List Field) : Prop :=
  Each (Node.Named L) (walkFields (fun _ => .parts) fields)

/-- A well-named statement. -/
abbrev Stmt.Named (s : Stmt) : Prop := Each (Node.Named L) (s.walk fun _ => .parts)

/-- Well-named statements. -/
abbrev NamedStmts (ss : List Stmt) : Prop := Each (Node.Named L) (walkStmts (fun _ => .parts) ss)

variable {L}

/-- A name whose history is read is named as any other. -/
theorem Expr.Named.index {object : Expr} (h : object.Named L) (p : Pos) (offset : Expr) :
    Node.Named L (.expr (.index p object offset)) := by
  cases object with
  | name q n => exact (each_cons.1 h).1
  | _ => trivial

/-- What is known of the local names of imports can be strengthened for the imports at hand. -/
theorem Node.Named.mono {M : String → String → Prop} {n : Node} (h : n.Named L)
    (hlm : ∀ p path localName, n = .stmt (.importLib p path localName) → L path localName →
      M path localName) : n.Named M := by
  unfold Node.Named at h ⊢
  split <;> simp_all

/-! ### Keying and pruning -/

/-- What holds of all nodes of a program holds of those that are left after pruning. -/
theorem each_prune {P : Node → Prop} {program : Program} (h : Each P program.nodes) :
    Each P program.prune.nodes :=
  each_stmts.2 fun s hs => each_stmts.1 h s (List.mem_filter.1 hs).1

theorem forall_name_keyedArgs (P : String → Prop) (args : List Arg) (n : Nat) :
    (∀ a ∈ (keyedArgs args n).1, P a.name) ↔ ∀ a ∈ args, P a.name := by
  induction args generalizing n with
  | nil => exact Iff.rfl
  | cons a args ih =>
    cases a
    rw [List.forall_mem_cons, ← ih]
    exact List.forall_mem_cons

theorem forall_name_keyedFields (P : String → Prop) (fields : List Field) (n : Nat) :
    (∀ f ∈ (keyedFields fields n).1, P f.name) ↔ ∀ f ∈ fields, P f.name := by
  induction fields generalizing n with
  | nil => exact Iff.rfl
  | cons f fields ih =>
    cases f
    rw [List.forall_mem_cons, ← ih]
    exact List.forall_mem_cons

/-- Keying leaves the names and operators of a node as they are. -/
theorem Node.keyless_named : Keyless (Node.Named L) := by
  intro node n h
  cases node with
  | program ss => trivial
  | expr e =>
    cases e with
    | index p object offset => cases object <;> exact h
    | call p key callee args types =>
      exact (forall_name_keyedArgs (fun name => name = "" ∨ Script.isNameShaped name = true)
        args _).2 h
    | _ => exact h
  | stmt s =>
    cases s with
    | typeDecl p name fields =>
      exact ⟨h.1, (forall_name_keyedFields (Script.isNameShaped · = true) fields _).2 h.2⟩
    | _ => exact h

namespace Program

/-- **Keying a well-named program leaves it well-named.** -/
theorem named_keyed {program : Program} (h : NamedStmts L program) : NamedStmts L program.keyed :=
  each_keyedStmts Node.keyless_named program h 1

/-- **Dropping dead functions leaves a program well-named.** -/
theorem named_prune {program : Program} (h : NamedStmts L program) :
    NamedStmts L program.prune := each_prune h

end Program

end Pine
