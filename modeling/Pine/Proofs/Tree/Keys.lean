import Pine.Proofs.Tree.Nodes
import Pine.Tree.Keys

/-!
# Keys tell nodes apart

Keying numbers the calls and declarations of a program in walking order, without gaps. So no two of
them share a key. Apart from the keys it leaves every node as it is.
-/

namespace Pine

open List

/-! ### Nodes with keys -/

/-- The key of a call or of a declaration. -/
def Node.key? : Node → Option Nat
  | .expr (.call _ key _ _ _) => some key
  | .stmt (.decl _ key _ _ _ _ _) => some key
  | _ => none

/-- A node with keys from a number on, and the next number. -/
def Node.keyed : Node → Nat → Node × Nat
  | .program ss, n => (.program (keyedStmts ss n).1, (keyedStmts ss n).2)
  | .expr e, n => (.expr (e.keyed n).1, (e.keyed n).2)
  | .stmt s, n => (.stmt (s.keyed n).1, (s.keyed n).2)

/-- The first number that is left for the parts of a node. -/
def Node.firstKey (node : Node) (n : Nat) : Nat := if node.key?.isSome then n + 1 else n

/-- Nodes with keys from a number on, and the next number. -/
def keyedNodes : List Node → Nat → List Node × Nat
  | [], n => ([], n)
  | node :: nodes, n =>
    ((node.keyed n).1 :: (keyedNodes nodes (node.keyed n).2).1,
      (keyedNodes nodes (node.keyed n).2).2)

theorem keyedNodes_append (ms ns : List Node) (n : Nat) : keyedNodes (ms ++ ns) n =
    ((keyedNodes ms n).1 ++ (keyedNodes ns (keyedNodes ms n).2).1,
      (keyedNodes ns (keyedNodes ms n).2).2) := by
  induction ms generalizing n with
  | nil => rfl
  | cons m ms ih => simp only [cons_append, keyedNodes, ih]

/-- Nodes with keys are nodes that were keyed. -/
theorem mem_keyedNodes {m : Node} {nodes : List Node} {n : Nat} (h : m ∈ (keyedNodes nodes n).1) :
    ∃ node ∈ nodes, ∃ k, m = (node.keyed k).1 := by
  induction nodes generalizing n with
  | nil => cases h
  | cons node nodes ih =>
    rcases mem_cons.1 h with rfl | h
    · exact ⟨node, mem_cons_self, n, rfl⟩
    · obtain ⟨node', hmem, hkeyed⟩ := ih h
      exact ⟨node', mem_cons_of_mem _ hmem, hkeyed⟩

theorem keyedNodes_exprs (es : List Expr) (n : Nat) :
    keyedNodes (es.map .expr) n = ((keyedExprs es n).1.map .expr, (keyedExprs es n).2) := by
  induction es generalizing n with
  | nil => rfl
  | cons e es ih =>
    rw [map_cons, keyedNodes, ih]
    rfl

theorem keyedNodes_args (args : List Arg) (n : Nat) :
    keyedNodes (args.map fun a => .expr a.value) n =
      ((keyedArgs args n).1.map fun a => .expr a.value, (keyedArgs args n).2) := by
  induction args generalizing n with
  | nil => rfl
  | cons a args ih =>
    cases a
    rw [map_cons, keyedNodes, ih]
    rfl

theorem keyedNodes_fields (fields : List Field) (n : Nat) :
    keyedNodes (fields.map fun f => .expr f.initial) n =
      ((keyedFields fields n).1.map fun f => .expr f.initial, (keyedFields fields n).2) := by
  induction fields generalizing n with
  | nil => rfl
  | cons f fields ih =>
    cases f
    rw [map_cons, keyedNodes, ih]
    rfl

theorem keyedNodes_stmts (ss : List Stmt) (n : Nat) :
    keyedNodes (ss.map .stmt) n = ((keyedStmts ss n).1.map .stmt, (keyedStmts ss n).2) := by
  induction ss generalizing n with
  | nil => rfl
  | cons s ss ih =>
    rw [map_cons, keyedNodes, ih]
    rfl

theorem keyedNodes_arms (arms : List Arm) (n : Nat) :
    keyedNodes (armParts arms) n = (armParts (keyedArms arms n).1, (keyedArms arms n).2) := by
  induction arms generalizing n with
  | nil => rfl
  | cons a arms ih =>
    cases a
    rw [armParts, flatMap_cons, keyedNodes_append, keyedNodes, keyedNodes_stmts, ← armParts,
      ih]
    rfl

/-- **Keying a node keys its parts** one after the other. -/
theorem Node.keyedNodes_parts (node : Node) (n : Nat) :
    keyedNodes node.parts (node.firstKey n) = ((node.keyed n).1.parts, (node.keyed n).2) := by
  cases node with
  | program ss => exact keyedNodes_stmts ss n
  | expr e =>
    cases e <;> simp only [parts, Expr.parts, keyedNodes, keyedNodes_append, keyedNodes_args,
      keyedNodes_exprs, keyedNodes_arms, keyedNodes_stmts] <;> rfl
  | stmt s =>
    cases s <;> simp only [parts, Stmt.parts, keyedNodes, keyedNodes_append, keyedNodes_fields,
      keyedNodes_arms, keyedNodes_stmts] <;> rfl

theorem Node.isMissing_keyed (node : Node) (n : Nat) :
    (node.keyed n).1.isMissing = node.isMissing := by
  cases node with
  | program ss => rfl
  | expr e => cases e <;> rfl
  | stmt s => cases s <;> rfl

theorem Node.keyed_of_isMissing {node : Node} (h : node.isMissing = true) (n : Nat) :
    node.keyed n = (node, n) := by
  cases node with
  | program ss => cases h
  | expr e =>
    cases e with
    | missing => rfl
    | _ => cases h
  | stmt s =>
    cases s with
    | missing => rfl
    | _ => cases h

/-- The nodes of a keyed node: the node itself, and the nodes of its keyed parts. -/
theorem Node.walk_keyed {node : Node} (h : node.isMissing = false) (n : Nat) :
    (node.keyed n).1.walk (fun _ => .parts) = (node.keyed n).1 ::
      (keyedNodes node.parts (node.firstKey n)).1.flatMap (Node.walk fun _ => .parts) := by
  rw [walk_parts ((isMissing_keyed node n).trans h), keyedNodes_parts]

/-! ### Numbers -/

/-- The keys of some nodes are the numbers from `n` on up to `m`, in this order. -/
structure Numbered (n : Nat) (nodes : List Node) (m : Nat) : Prop where
  le : n ≤ m
  keys : nodes.filterMap Node.key? = List.range' n (m - n)

namespace Numbered

variable {n m k : Nat} {node : Node} {ms ns : List Node}

theorem nil (n : Nat) : Numbered n [] n := ⟨Nat.le_refl n, by simp⟩

/-- A node without a key takes no number. -/
theorem cons (hkey : node.key? = none) (h : Numbered n ns m) : Numbered n (node :: ns) m :=
  ⟨h.le, by rw [filterMap_cons_none hkey, h.keys]⟩

/-- A node with a key takes the first number. -/
theorem cons_key (hkey : node.key? = some n) (h : Numbered (n + 1) ns m) :
    Numbered n (node :: ns) m := by
  have hle := h.le
  refine ⟨by omega, ?_⟩
  have hcount : m - n = (m - (n + 1)) + 1 := by omega
  rw [filterMap_cons_some hkey, h.keys, hcount, List.range'_succ]

theorem append (h : Numbered n ns m) (h' : Numbered m ms k) : Numbered n (ns ++ ms) k := by
  have hle := h.le
  have hle' := h'.le
  have hstart : n + (m - n) = m := by omega
  have hcount : k - n = (m - n) + (k - m) := by omega
  refine ⟨by omega, ?_⟩
  rw [filterMap_append, h.keys, h'.keys, hcount, ← List.range'_append_1, hstart]

theorem nodup (h : Numbered n ns m) : (ns.filterMap Node.key?).Nodup :=
  h.keys ▸ nodup_range'

end Numbered

/-- A node takes the first number if it has a key at all. -/
theorem Node.key?_keyed (node : Node) (n : Nat) :
    (node.keyed n).1.key? = node.key?.map fun _ => n := by
  cases node with
  | program ss => rfl
  | expr e => cases e <;> rfl
  | stmt s => cases s <;> rfl

theorem numbered_keyedNodes (nodes : List Node) (h : ∀ node ∈ nodes, ∀ n,
    Numbered n ((node.keyed n).1.walk fun _ => .parts) (node.keyed n).2) (n : Nat) :
    Numbered n ((keyedNodes nodes n).1.flatMap (Node.walk fun _ => .parts))
      (keyedNodes nodes n).2 := by
  induction nodes generalizing n with
  | nil => exact .nil n
  | cons node nodes ih =>
    obtain ⟨hnode, hnodes⟩ := forall_mem_cons.1 h
    exact (hnode n).append (ih hnodes _)

theorem Node.numbered_keyed (node : Node) (n : Nat) :
    Numbered n ((node.keyed n).1.walk fun _ => .parts) (node.keyed n).2 := by
  induction node using Node.induct generalizing n with
  | inherit node ih =>
    cases hmissing : node.isMissing with
    | true =>
      rw [keyed_of_isMissing hmissing, walk_missing hmissing]
      exact .nil n
    | false =>
      have hparts := numbered_keyedNodes _ ih (node.firstKey n)
      have hkeyed := key?_keyed node n
      rw [walk_keyed hmissing]
      rw [keyedNodes_parts] at hparts ⊢
      unfold firstKey at hparts
      cases hkey : node.key? with
      | none =>
        rw [hkey] at hkeyed hparts
        exact .cons hkeyed hparts
      | some key =>
        rw [hkey] at hkeyed hparts
        exact .cons_key hkeyed hparts

/-- **Keying numbers the calls and declarations of statements** in walking order. -/
theorem numbered_keyedStmts (ss : List Stmt) (n : Nat) :
    Numbered n (walkStmts (fun _ => .parts) (keyedStmts ss n).1) (keyedStmts ss n).2 := by
  have hnodes := numbered_keyedNodes (ss.map .stmt) (fun s _ => s.numbered_keyed) n
  rw [keyedNodes_stmts, flatMap_map] at hnodes
  rwa [walkStmts_eq]

/-- **No two calls or declarations of a keyed program share a key.** -/
theorem Program.nodup_keys_keyed (program : Program) :
    (program.keyed.nodes.filterMap Node.key?).Nodup :=
  (numbered_keyedStmts program 1).nodup

/-! ### Properties that do not depend on keys -/

/-- Keying keeps a property of nodes. -/
def Keyless (P : Node → Prop) : Prop := ∀ node n, P node → P (node.keyed n).1

theorem Node.each_keyed {P : Node → Prop} (hP : Keyless P) (node : Node)
    (h : Each P (node.walk fun _ => .parts)) (n : Nat) :
    Each P ((node.keyed n).1.walk fun _ => .parts) := by
  induction node using Node.induct generalizing n with
  | inherit node ih =>
    cases hmissing : node.isMissing with
    | true => rwa [keyed_of_isMissing hmissing]
    | false =>
      rw [walk_parts hmissing] at h
      obtain ⟨hnode, hparts⟩ := each_cons.1 h
      rw [walk_keyed hmissing]
      refine .cons (hP node n hnode) (each_flatMap.2 fun m hm => ?_)
      obtain ⟨part, hpart, k, rfl⟩ := mem_keyedNodes hm
      exact ih part hpart (each_flatMap.1 hparts part hpart) k

/-- What keying does not change of any node holds of the keyed nodes. -/
theorem each_keyedStmts {P : Node → Prop} (hP : Keyless P) (ss : List Stmt)
    (h : Each P (walkStmts (fun _ => .parts) ss)) (n : Nat) :
    Each P (walkStmts (fun _ => .parts) (keyedStmts ss n).1) := by
  refine each_stmts.2 fun s hs => ?_
  have hmem : .stmt s ∈ (keyedNodes (ss.map .stmt) n).1 := by
    rw [keyedNodes_stmts]
    exact mem_map_of_mem hs
  obtain ⟨node, hnode, k, hkeyed⟩ := mem_keyedNodes hmem
  obtain ⟨s', hs', rfl⟩ := mem_map.1 hnode
  cases hkeyed
  exact Node.each_keyed hP (.stmt s') (each_stmts.1 h s' hs') k

end Pine
