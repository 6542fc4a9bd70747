import Pine.Proofs.Tree.Keys

/-!
# Chains of suffixes

A call, a member or an offset follows another expression and stands at the position of that
expression, so that all suffixes of a chain such as `f(x).y[1]` share one position. Each of them is
a *link*, and the innermost one is the first link of its chain.

If every link stands where the expression that it follows stands, and if the first links stand at
different positions, then two suffixes share a position only if one of them is followed by the
other.
-/

namespace Pine

open List

/-! ### Suffixes and links -/

namespace Expr

/-- What a suffix follows: the callee of a call, the object of a member or an offset. -/
def object? : Expr → Option Expr
  | member _ object _ | index _ object _ | call _ _ object _ _ => some object
  | _ => none

/-- Whether an expression follows another one. -/
def isSuffix (e : Expr) : Bool := e.object?.isSome

/-- What a suffix follows in turn, the nearest expression first. -/
def stem : Expr → List Expr
  | member _ object _ | index _ object _ | call _ _ object _ _ => object :: object.stem
  | _ => []

theorem stem_eq_nil {e : Expr} (h : e.object? = none) : e.stem = [] := by
  cases e with
  | member | index | call => cases h
  | _ => rfl

theorem stem_of_object? {e object : Expr} (h : e.object? = some object) :
    e.stem = object :: object.stem := by
  cases e with
  | member | index | call =>
    cases h
    rfl
  | _ => cases h

end Expr

/-- How a suffix stands to what it follows. -/
structure Link where
  /-- The position of the suffix. -/
  pos : Pos
  /-- The position of what it follows. -/
  base : Pos
  /-- Whether it is the first of its chain: what it follows is no suffix. -/
  isFirst : Bool

/-- The link of a node. -/
def Node.link? : Node → Option Link
  | .expr e => e.object?.map fun object => ⟨e.pos, object.pos, !object.isSuffix⟩
  | _ => none

/-- The links among some nodes. -/
def links (ns : List Node) : List Link := ns.filterMap Node.link?

/-- Every link stands where the expression that it follows stands. -/
def Aligned (ls : List Link) : Prop := ∀ l ∈ ls, l.base = l.pos

/-- The positions of the first links of chains. -/
def anchors (ls : List Link) : List Pos := (ls.filter Link.isFirst).map Link.pos

section Append

variable (ms ns : List Node) (ks ls : List Link)

@[simp] theorem links_nil : links [] = [] := rfl

@[simp] theorem links_append : links (ms ++ ns) = links ms ++ links ns := filterMap_append

@[simp] theorem aligned_nil : Aligned [] := nofun

@[simp] theorem aligned_cons {l : Link} : Aligned (l :: ls) ↔ l.base = l.pos ∧ Aligned ls :=
  forall_mem_cons

@[simp] theorem aligned_append : Aligned (ks ++ ls) ↔ Aligned ks ∧ Aligned ls :=
  forall_mem_append

@[simp] theorem anchors_nil : anchors [] = [] := rfl

@[simp] theorem anchors_append : anchors (ks ++ ls) = anchors ks ++ anchors ls := by
  rw [anchors, filter_append, map_append, anchors, anchors]

end Append

/-! ### Nodes that share a position -/

/-- Two suffixes share a position only if the first follows the second. -/
def Node.Apart : Node → Node → Prop
  | .expr d, .expr e => d.isSuffix = true → e.isSuffix = true → d.pos = e.pos → e ∈ d.stem
  | _, _ => True

/-- Every suffix stands at an anchor, and if all anchors differ then the nodes are apart. -/
structure Anchored (ns : List Node) : Prop where
  /-- A suffix stands where the first link of its chain stands. -/
  mem : ∀ e, .expr e ∈ ns → e.isSuffix = true → e.pos ∈ anchors (links ns)
  /-- A suffix stands where the expressions stand that it follows. -/
  stem : ∀ e, .expr e ∈ ns → ∀ object ∈ e.stem, object.pos = e.pos
  /-- Suffixes of different chains stand at different positions. -/
  apart : (anchors (links ns)).Nodup → ns.Pairwise Node.Apart

/-- Nodes whose links, if aligned, lead to anchors. -/
def Chained (ns : List Node) : Prop := Aligned (links ns) → Anchored ns

namespace Chained

variable {ms ns : List Node}

theorem nil : Chained [] := fun _ => ⟨nofun, nofun, fun _ => .nil⟩

theorem append (hm : Chained ms) (hn : Chained ns) : Chained (ms ++ ns) := by
  intro h
  rw [links_append, aligned_append] at h
  obtain ⟨hmem, hstem, hapart⟩ := hm h.1
  obtain ⟨hmem', hstem', hapart'⟩ := hn h.2
  refine ⟨fun e he hs => ?_, fun e he => ?_, fun hnodup => ?_⟩
  · rw [links_append, anchors_append]
    rcases mem_append.1 he with he | he
    · exact mem_append_left _ (hmem e he hs)
    · exact mem_append_right _ (hmem' e he hs)
  · exact (mem_append.1 he).elim (hstem e) (hstem' e)
  · rw [links_append, anchors_append, nodup_append] at hnodup
    obtain ⟨hms, hns, hne⟩ := hnodup
    refine pairwise_append.2 ⟨hapart hms, hapart' hns, fun m hm n hn => ?_⟩
    cases m with
    | expr d =>
      cases n with
      | expr e => exact fun hd he hp => absurd hp (hne _ (hmem d hm hd) _ (hmem' e hn he))
      | _ => trivial
    | _ => trivial

/-- A node without a link in front of its parts. -/
theorem cons {n : Node} (hn : n.link? = none) (h : Chained ns) : Chained (n :: ns) := by
  have hone : Chained [n] := by
    have hnone (e : Expr) (he : .expr e ∈ [n]) : e.object? = none := by
      rw [← mem_singleton.1 he] at hn
      exact Option.map_eq_none_iff.1 hn
    refine fun _ => ⟨fun e he hs => ?_, fun e he => ?_, fun _ => pairwise_singleton _ _⟩
    · rw [Expr.isSuffix, hnone e he] at hs
      cases hs
    · rw [Expr.stem_eq_nil (hnone e he)]
      exact nofun
  exact hone.append h

/-- A suffix in front of what it follows and its other parts. The suffix stands where the expression
in front of it stands, so it lies apart from all nodes but those of its own chain. -/
theorem suffix {e object : Expr} (hobject : e.object? = some object)
    (hhead : object.isSuffix = true → ms.head? = some (.expr object)) (hm : Chained ms)
    (hn : Chained ns) : Chained (.expr e :: (ms ++ ns)) := by
  have hlinks : links (.expr e :: (ms ++ ns)) =
      ⟨e.pos, object.pos, !object.isSuffix⟩ :: links (ms ++ ns) := by
    simp [links, Node.link?, hobject]
  intro h
  rw [hlinks, aligned_cons] at h
  have hpos : object.pos = e.pos := h.1
  replace h := h.2
  have hrest := hm.append hn h
  rw [links_append, aligned_append] at h
  have hstem : ∀ x ∈ object.stem, x.pos = object.pos := by
    cases hs : object.isSuffix with
    | true => exact (hm h.1).stem object (mem_of_head? (hhead hs))
    | false =>
      rw [Expr.stem_eq_nil (by simpa [Expr.isSuffix] using hs)]
      exact nofun
  have hstems : ∀ d, .expr d ∈ Node.expr e :: (ms ++ ns) → ∀ x ∈ d.stem, x.pos = d.pos := by
    intro d hd
    rcases mem_cons.1 hd with hd | hd
    · cases hd
      rw [Expr.stem_of_object? hobject]
      exact forall_mem_cons.2 ⟨hpos, fun x hx => (hstem x hx).trans hpos⟩
    · exact hrest.stem d hd
  cases hs : object.isSuffix with
  | false =>
    have hanchors : anchors (links (.expr e :: (ms ++ ns))) =
        e.pos :: anchors (links (ms ++ ns)) := by
      rw [hlinks, hs]
      rfl
    refine ⟨fun d hd hsuffix => ?_, hstems, fun hnodup => ?_⟩
    · rw [hanchors]
      rcases mem_cons.1 hd with hd | hd
      · cases hd
        exact mem_cons_self
      · exact mem_cons_of_mem _ (hrest.mem d hd hsuffix)
    · rw [hanchors, nodup_cons] at hnodup
      refine pairwise_cons.2 ⟨fun n hn => ?_, hrest.apart hnodup.2⟩
      cases n with
      | expr d => exact fun _ hd hp => absurd (hp ▸ hrest.mem d hn hd) hnodup.1
      | _ => trivial
  | true =>
    have hanchors : anchors (links (.expr e :: (ms ++ ns))) = anchors (links (ms ++ ns)) := by
      rw [hlinks, hs]
      rfl
    obtain ⟨tail, rfl⟩ := head?_eq_some_iff.1 (hhead hs)
    have hbase : e.pos ∈ anchors (links (.expr object :: tail)) :=
      hpos ▸ (hm h.1).mem object mem_cons_self hs
    refine ⟨fun d hd hsuffix => ?_, hstems, fun hnodup => ?_⟩
    · rw [hanchors]
      rcases mem_cons.1 hd with hd | hd
      · cases hd
        rw [links_append, anchors_append]
        exact mem_append_left _ hbase
      · exact hrest.mem d hd hsuffix
    · rw [hanchors] at hnodup
      refine pairwise_cons.2 ⟨fun n hmem => ?_, hrest.apart hnodup⟩
      rw [links_append, anchors_append, nodup_append] at hnodup
      cases n with
      | expr d =>
        intro _ hd hp
        rw [Expr.stem_of_object? hobject]
        rcases mem_append.1 hmem with hmem | hmem
        · rcases mem_cons.1 hmem with hd | hmem
          · cases hd
            exact mem_cons_self
          · have happart := (pairwise_cons.1 ((hm h.1).apart hnodup.1)).1 _ hmem
            exact mem_cons_of_mem _ (happart hs hd (hpos.trans hp))
        · exact absurd hp (hnodup.2.2 _ hbase _ ((hn h.2).mem d hmem hd))
      | _ => trivial

end Chained

theorem Chained.flatMap (nodes : List Node)
    (h : ∀ n ∈ nodes, Chained (n.walk fun _ => .parts)) :
    Chained (nodes.flatMap (Node.walk fun _ => .parts)) := by
  induction nodes with
  | nil => exact .nil
  | cons n nodes ih =>
    obtain ⟨hn, hnodes⟩ := forall_mem_cons.1 h
    rw [flatMap_cons]
    exact hn.append (ih hnodes)

/-- What a suffix follows is its first part. -/
theorem Expr.parts_of_object? {e object : Expr} (h : e.object? = some object) :
    ∃ rest, e.parts = .expr object :: rest := by
  cases e with
  | member | index | call =>
    cases h
    exact ⟨_, rfl⟩
  | _ => cases h

/-- A suffix comes first in its own walk. -/
theorem Expr.head?_walk {e : Expr} (h : e.isSuffix = true) :
    (e.walk fun _ => .parts).head? = some (.expr e) := by
  cases e with
  | member | index | call => rfl
  | _ => cases h

theorem Node.chained (n : Node) : Chained (n.walk fun _ => .parts) := by
  induction n using Node.induct with
  | inherit n ih =>
    cases hn : n.isMissing with
    | true =>
      rw [walk_missing hn]
      exact .nil
    | false =>
      rw [walk_parts hn]
      cases hlink : n.link? with
      | none => exact .cons hlink (.flatMap _ ih)
      | some link =>
        cases n with
        | expr e =>
          obtain ⟨object, hobject, -⟩ := Option.map_eq_some_iff.1 hlink
          obtain ⟨rest, hparts⟩ := Expr.parts_of_object? hobject
          rw [parts, hparts] at ih ⊢
          obtain ⟨hfirst, hrest⟩ := each_cons.1 ih
          exact .suffix hobject Expr.head?_walk hfirst (.flatMap _ hrest)
        | _ => cases hlink

theorem chainedStmts (ss : List Stmt) : Chained (walkStmts (fun _ => .parts) ss) := by
  have hnodes := Chained.flatMap (ss.map .stmt) fun n _ => n.chained
  rw [flatMap_map] at hnodes
  rwa [walkStmts_eq]

/-- **Nodes share a position only within a chain**, if links are aligned and anchors differ. -/
theorem Program.pairwise_apart {program : Program} (h : Aligned (links program.nodes))
    (hnodup : (anchors (links program.nodes)).Nodup) : program.nodes.Pairwise Node.Apart :=
  (chainedStmts program h).apart hnodup

/-- A suffix stands where the expressions stand that it follows. -/
theorem Program.pos_of_mem_stem {program : Program} (h : Aligned (links program.nodes)) {e : Expr}
    (he : .expr e ∈ program.nodes) : ∀ object ∈ e.stem, object.pos = e.pos :=
  (chainedStmts program h).stem e he

/-! ### Keying -/

theorem Node.link?_keyed (node : Node) (n : Nat) : (node.keyed n).1.link? = node.link? := by
  have hlink (p : Pos) (e : Expr) (n : Nat) :
      (⟨p, (e.keyed n).1.pos, !(e.keyed n).1.isSuffix⟩ : Link) = ⟨p, e.pos, !e.isSuffix⟩ := by
    cases e <;> rfl
  cases node with
  | expr e =>
    cases e with
    | member p object | index p object | call p key object => exact congrArg some (hlink p object _)
    | _ => rfl
  | _ => rfl

theorem links_keyedNodes (nodes : List Node) (h : ∀ node ∈ nodes, ∀ n,
    links ((node.keyed n).1.walk fun _ => .parts) = links (node.walk fun _ => .parts)) (n : Nat) :
    links ((keyedNodes nodes n).1.flatMap (Node.walk fun _ => .parts)) =
      links (nodes.flatMap (Node.walk fun _ => .parts)) := by
  induction nodes generalizing n with
  | nil => rfl
  | cons node nodes ih =>
    obtain ⟨hnode, hnodes⟩ := forall_mem_cons.1 h
    rw [keyedNodes, flatMap_cons, flatMap_cons, links_append, links_append, hnode,
      ih hnodes]

theorem Node.links_keyed (node : Node) (n : Nat) :
    links ((node.keyed n).1.walk fun _ => .parts) = links (node.walk fun _ => .parts) := by
  induction node using Node.induct generalizing n with
  | inherit node ih =>
    cases hmissing : node.isMissing with
    | true => rw [keyed_of_isMissing hmissing]
    | false =>
      rw [walk_keyed hmissing, walk_parts hmissing, links, links, filterMap_cons,
        filterMap_cons, link?_keyed, ← links, ← links, links_keyedNodes _ ih]

/-- **Keys do not change links.** -/
theorem Program.links_keyed (program : Program) : links program.keyed.nodes = links program.nodes := by
  have hnodes := links_keyedNodes (program.map .stmt) (fun node _ => node.links_keyed) 1
  rw [keyedNodes_stmts, flatMap_map, flatMap_map] at hnodes
  simpa only [Program.nodes, walkStmts_eq]

end Pine
