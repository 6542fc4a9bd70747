import Pine.Proofs.Lowering.Labels
import Pine.Proofs.Lowering.Progress

/-!
# Lowering declares names once

A block of a script declares every name once, except for names `C` of the source, if the block of
the source that it comes from is distinct up to these names. Blocks of a script are made by
functions, loops, branches, the arms of switches and by expressions with a value block; each of them
is a scope of its own, in which nothing is taken at the start.
-/

namespace Pine

open Lower List
open Script (ApartBut Once declaredNames stmtBlocks safeName once_nil once_cons once_append)

namespace Lowering

variable {env : Context} {C : String → Prop}

/-! ### Expressions -/

/-- The blocks of an expression other than a block are those of its parts. -/
theorem exprClosed_once : ExprClosed fun e => Once C e.blocks where
  atom _ := once_nil
  ctx := once_nil
  member _ _ h := h
  series _ _ h := h
  input _ _ h := h
  plot _ _ h := h
  object named h := by
    change Once C (Script.propertyBlocks _)
    induction named with
    | nil => exact once_nil
    | cons p named ih =>
      exact once_append.2
        ⟨h p (mem_cons_self ..), ih fun q hq => h q (mem_cons_of_mem _ hq)⟩
  call _ hcallee _ hargs := once_append.2 ⟨hcallee, Script.once_exprBlocks.2 hargs⟩
  function _ _ hargs := once_append.2 ⟨once_nil, Script.once_exprBlocks.2 hargs⟩
  literal _ := once_nil
  unary _ _ h := h
  binary _ _ _ hl hr := once_append.2 ⟨hl, hr⟩
  ternary _ _ _ hc hy hn := once_append.2 ⟨once_append.2 ⟨hc, hy⟩, hn⟩
  paren _ h := h
  array _ h := Script.once_exprBlocks.2 h

/-! ### Choices and blocks -/

theorem once_declaredValue (name : String) (names : List String) :
    Once C (declaredValue name names).blocks := by
  unfold declaredValue
  split
  · exact once_nil
  · refine Script.once_exprBlocks.2 fun e he => ?_
    obtain ⟨n, -, rfl⟩ := mem_map.1 he
    exact once_nil

theorem once_ret {e : Script.Expr} (h : Once C e.blocks) (tail : Bool) :
    Once C (stmtBlocks (if tail then [.ret e] else [])) ∧
      declaredNames (if tail then [.ret e] else []) = [] := by
  cases tail with
  | true => exact ⟨once_append.2 ⟨h, once_nil⟩, rfl⟩
  | false => exact ⟨once_nil, rfl⟩

theorem once_valueBlock (total : Bool) {body : List Script.Stmt} (h : OnceBlock C body) :
    Once C (valueBlock total body).blocks := by
  cases total with
  | true =>
    change OnceBlock C (body ++ [])
    rwa [List.append_nil]
  | false =>
    change Once C (declaredNames (body ++ [.ret .nan]) :: stmtBlocks (body ++ [.ret .nan]))
    rw [Script.declaredNames_append, Script.stmtBlocks_append]
    simpa [OnceBlock, stmtBlocks, Script.Stmt.blocks, Script.Stmt.declares, Script.Expr.blocks,
      Script.Expr.nan] using h

section Choices

variable {arms : List Arm} {last : Option (List Script.Stmt)}

theorem once_otherwise (hlast : LastOf (fun _ => OnceBlock C) arms last) :
    {branches : List (Script.Expr × List Script.Stmt)} →
    BranchesOf (fun e => Once C e.blocks) (fun _ => OnceBlock C) arms branches →
    Once C (otherwise last branches).blocks
  | [], _ => by
    cases last with
    | none => exact once_nil
    | some body => exact (hlast.1 body rfl).elim fun _ h => h.2
  | (cond, body) :: rest, h => by
    obtain ⟨⟨hcond, _, -, hbody⟩, hrest⟩ := forall_mem_cons.1 h
    exact once_append.2 ⟨once_append.2 ⟨hcond, hbody⟩, once_otherwise hlast hrest⟩

/-- A chain of choices declares nothing outside of its branches. -/
theorem once_chain {branches : List (Script.Expr × List Script.Stmt)}
    (h : BranchesOf (fun e => Once C e.blocks) (fun _ => OnceBlock C) arms branches)
    (hlast : LastOf (fun _ => OnceBlock C) arms last) :
    Once C (stmtBlocks (chain branches last)) ∧ declaredNames (chain branches last) = [] := by
  unfold chain
  split
  · exact ⟨once_nil, rfl⟩
  · next body =>
    obtain ⟨_, -, hbody⟩ := hlast.1 body rfl
    exact ⟨once_append.2 ⟨hbody, once_nil⟩, rfl⟩
  · obtain ⟨⟨hcond, _, -, hbody⟩, hrest⟩ := forall_mem_cons.1 h
    exact ⟨once_append.2 ⟨once_append.2 ⟨once_append.2 ⟨hcond, hbody⟩,
      once_otherwise hlast hrest⟩, once_nil⟩, rfl⟩

theorem once_caseBlocks {cases : List Script.Case}
    (h : CasesOf (fun e => Once C e.blocks) (fun _ => OnceBlock C) arms cases) :
    Once C (Script.caseBlocks cases) := by
  induction h with
  | nil => exact once_nil
  | default hb _ ih => exact once_append.2 ⟨hb, ih⟩
  | test _ ht hb _ ih => exact once_append.2 ⟨once_append.2 ⟨ht, hb⟩, ih⟩

end Choices

theorem blocks_shims (env : Context) (name : String) (params : List Param) (isMethod : Bool) :
    stmtBlocks (shims env name params isMethod) = [] ∧
      declaredNames (shims env name params isMethod) = [] := by
  unfold shims
  repeat' split
  all_goals exact ⟨rfl, rfl⟩

section Blocks

variable {names : List (NameKind × String)} {rest : Lower (List Script.Stmt)}

/-- The block of a function or of a loop over a collection binds its parameters first, which are
not declared in it. -/
theorem quiet_block (kind : SymbolKind) (params : List String) (front : List Script.Stmt)
    (hfront : stmtBlocks front = [] ∧ declaredNames front = []) (hrest : Adds C names rest) :
    Quiet (inScope do
      let _ ← defineAll kind params
      let series ← afterDeclareAll env params
      return front ++ series ++ (← rest)) (OnceBlock C) := by
  refine quiet_inScope fun s => ?_
  refine (ensures_defineAll_taken kind params s).bind fun _ s₁ hdefine => ?_
  obtain ⟨-, hgrows, htaken, -⟩ := hdefine
  refine (emitted_afterDeclareAll C params htaken).bind fun series s₂ hseries => ?_
  refine (hrest s₂).bind fun code s₃ hcode => ensures_pure ?_
  have hstart : Emitted C [] s (front ++ series) s₂ :=
    (Emitted.of_grows hgrows (hfront.1 ▸ once_nil) hfront.2).append_nil hseries
  have hall := hstart.append hcode nofun
  exact ⟨hall.onceBlock, hall.toGrows⟩

end Blocks

/-! ### Statements -/

theorem apartBut_directionName (n : Nat) (name : String) :
    ApartBut C (safeName name) (Script.directionName n) :=
  .of_ne (Script.safeName_ne_of_startsWith (by decide) (by decide)
    (Script.startsWith_directionName n) name)

/-- An import declares its name, whether it is taken or not. -/
theorem adds_importLib (tail : Bool) (p : Pos) (path localName : String) :
    Adds C [(.library, localName)] (stmt env tail (.importLib p path localName)) := by
  rw [stmt]
  refine fun s => (ensures_define localName .library).bind ?_
  rintro _ _ ⟨-, rfl⟩
  obtain ⟨hgrows, htaken⟩ := grows_define s localName .library
  refine ((quiet_warn _ _ _ _).ensures _).bind fun _ s₂ hwarn => ensures_pure ?_
  exact .single (l := .own localName) (hgrows.trans hwarn.2.grows) once_nil rfl
    (.library (mem_singleton.2 rfl) (hwarn.2.grows.taken _ htaken))

/-! ### Trees -/

theorem distinct_self {n : Node} (h : Each (Node.Distinct C) (n.walk fun _ => .parts)) :
    n.Distinct C := by
  cases hm : n.isMissing with
  | false =>
    rw [Node.walk_parts hm] at h
    exact (each_cons.1 h).1
  | true =>
    have hblocks : n.blocks = [] ∧ n.headNames = [] := by
      cases n with
      | program => cases hm
      | expr e => cases e <;> first | exact ⟨rfl, rfl⟩ | cases hm
      | stmt s => cases s <;> first | exact ⟨rfl, rfl⟩ | cases hm
    rw [Node.Distinct, hblocks.1, hblocks.2]
    exact ⟨nofun, .nil⟩

theorem adds_one {s : Script.Stmt} {names : List (NameKind × String)} (honce : Once C s.blocks)
    (hnames : s.declares = []) : Adds C names (pure [s]) :=
  adds_pure (once_append.2 ⟨honce, once_nil⟩) (congrArg (· ++ []) hnames)

/-- **Distinct trees are lowered to blocks that declare every name once**; a body declares the
labels of the names that it introduces, and labels that are made up. -/
theorem treeLogic_once (env : Context) (C : String → Prop) :
    TreeLogic (T := Unit) env True (fun n => Each (Node.Distinct C) (n.walk fun _ => .parts))
      (DistinctStmts C) (fun _ => Quiet) (fun _ e => Once C e.blocks) (fun _ _ _ => OnceBlock C)
      (fun _ _ _ o => Once C o.blocks) (fun _ _ ss => Adds C (introducedNames ss)) where
  parts _ := Node.each_parts
  choice h hchoice := by
    rename_i e _
    cases e <;> cases hchoice <;> exact each_cons.2 ⟨(each_cons.1 h).1, (each_cons.1 h).2⟩
  blocks _ h := (distinct_self h).1
  later h := (distinctStmts_cons h).1
  steps _ := ⟨quiet_pure, Quiet.bind, fun h s₀ => keeps_get fun s => h s s₀,
    fun _ _ _ pos gap _ => keeps_fail pos gap⟩
  closed _ := exprClosed_once
  name _ _ := once_nil
  warned _ := quiet_warn
  history _ ho := quiet_pure ho
  value := once_valueBlock _
  bind := Quiet.bind_adds
  failed _ _ _ _ pos gap _ := ensures_fail pos gap
  scope hs hQ := quiet_inScope fun s => (hs () s).bind fun _ _ hcode =>
    ensures_pure ⟨hQ _ hcode.onceBlock, hcode.toGrows⟩
  nil := adds_pure once_nil rfl
  cons {_ _ s ss _ _} hdistinct _ hs hss := by
    have happend : introducedNames (s :: ss) = introducedNames [s] ++ introducedNames ss :=
      show introducedNames ([s] ++ ss) = _ from flatMap_append
    rw [DistinctStmts, happend, pairwise_append] at hdistinct
    rw [happend]
    exact hs.append (hss ()) hdistinct.2.2
  decl {_ tail _ _ name names _ _ _ _} _ hv := by
    obtain ⟨hret, hnames⟩ := once_ret (C := C) (once_declaredValue name names) tail
    rw [introducedNames_cons]
    exact (List.append_nil _).symm ▸ (adds_declStmts hv _ _ _ _ _).append_pure hret hnames
  assign {_ tail _ _ n op _ v} hv s := by
    refine (emitted_afterAssign C s n).bind fun code s' hcode => ensures_pure ?_
    have hwrite : Emitted C [] s [.assign (.name (safeName n)) op v] s :=
      .of_grows (.refl s) (once_append.2 ⟨hv, once_nil⟩) rfl
    obtain ⟨hret, hnames⟩ := once_ret (e := .name (safeName n)) once_nil tail
    exact (hwrite.append_nil hcode).append_nil (.of_grows (.refl s') hret hnames)
  assignMember htarget _ hv := htarget.bind_adds fun _ he => adds_one (once_append.2 ⟨he, hv⟩) rfl
  func hs := by
    obtain ⟨hshims, hnames⟩ := blocks_shims env _ _ _
    refine (quiet_block .param _ [] ⟨rfl, rfl⟩ (hs ())).bind_adds
      fun code hcode => adds_pure ?_ hnames
    rw [stmtBlocks, hshims]
    exact once_append.2 ⟨hcode, once_nil⟩
  ifElse hc hyes hno := adds_one (once_append.2 ⟨once_append.2 ⟨hc, hyes⟩, hno⟩) rfl
  loop {_ _ s _ _ _ _} h hloop hs := by
    have hnames : introducedNames [s] = [] := by cases hloop <;> rfl
    rw [hnames]
    refine adds_freshLoop fun n => (quiet_block .loop _ [.guard n env.loopLimit] ⟨rfl, rfl⟩
      (hs ())).bind fun code hcode => quiet_pure ?_
    have hcode' := once_cons.1 hcode
    cases hloop with
    | whileLoop hc | forOf hc => exact ⟨by simp [stmtBlocks, Script.Stmt.blocks, hc, hcode'], rfl⟩
    | forStep _ _ hfirst hlast hstep =>
      exact ⟨by simp [stmtBlocks, Script.Stmt.blocks, hfirst, hlast, hstep, hcode'], rfl⟩
    | forEither hfirst hlast =>
      exact ⟨by simp [stmtBlocks, Script.Stmt.blocks, apartBut_directionName, hfirst, hlast,
        hcode'], rfl⟩
    | @forEntries _ index item _ _ _ hc =>
      have hapart : ApartBut C (safeName index) (safeName item) := fun heq =>
        ⟨index, (pairwise_cons.1 (distinct_self h).2).1 item (mem_singleton_self item)
          (Script.safeName_injective heq), rfl⟩
      exact ⟨by simp [stmtBlocks, Script.Stmt.blocks, hc, hcode', hapart], rfl⟩
  retVoid _ := adds_one once_nil rfl
  ret _ hv := adds_one hv rfl
  brk := adds_one once_nil rfl
  cont := adds_one once_nil rfl
  choices hb hl := adds_pure (once_chain hb hl).1 (once_chain hb hl).2
  subject hv hbranches hlast := by
    refine adds_freshSwitch fun n => (hbranches () n).bind fun _ hb => (hlast ()).bind fun _ hl =>
      quiet_pure ⟨once_append.2 ⟨hv, (once_chain hb hl).1⟩, ?_⟩
    rw [Script.declaredNames_cons, (once_chain hb hl).2]
    rfl
  native hv _ hcases := adds_one (once_append.2 ⟨hv, once_caseBlocks hcases⟩) rfl
  typeDecl {_ _ _ name fields} hfields := by
    have hslots : Quiet (slots env fields) fun slots => Once C (Script.slotBlocks slots) :=
      fun s₀ => keeps_slots (stepLogic_keeps _) once_nil once_nil
        (fun _ _ _ _ hi hs => once_append.2 ⟨hi, hs⟩) fun f hf hm => hfields f hf hm s₀
    exact hslots.bind_adds fun slots hs s => ensures_pure (.single (l := .own name) (.refl s)
      (once_append.2 ⟨hs, once_nil⟩) rfl (.record (mem_singleton.2 rfl)))
  importLib _ := adds_importLib _ _ _ _
  exported := id
  silent _ := adds_pure once_nil rfl
  exprStmt {_ tail _ _ _} _ hv := by cases tail <;> exact adds_one hv rfl
  nothing := once_nil
  block := id
  elseIf hc hyes hno := once_append.2 ⟨once_append.2 ⟨hc, hyes⟩, hno⟩

/-! ### The prologue -/

variable (C) in
/-- Price series are declared without asking. -/
theorem adds_sourceStmts : (names : List String) → names.Nodup →
    Adds C (names.map (.library, ·)) (sourceStmts env names)
  | [], _ => adds_pure once_nil rfl
  | name :: names, hnodup => by
    obtain ⟨hname, hnodup⟩ := nodup_cons.1 hnodup
    refine fun s => (ensures_define name .plain).bind ?_
    rintro _ _ ⟨-, rfl⟩
    obtain ⟨hgrows, htaken⟩ := grows_define s name .plain
    refine (emitted_afterDeclare C htaken).bind fun series s₂ hseries => ?_
    refine (adds_sourceStmts names hnodup s₂).bind fun code s₃ hcode => ensures_pure ?_
    have hfirst : Emitted C [(.library, name)] s
        (.const (safeName name) (.atom (sourceText name)) :: series) s₂ :=
      .cons_nil (.single (l := .own name) hgrows once_nil rfl
        (.library (mem_singleton.2 rfl) htaken)) hseries
    refine hfirst.append hcode ?_
    rintro _ hp _ hq ⟨heq, -⟩
    obtain rfl := mem_singleton.1 hp
    obtain ⟨x, hx, rfl⟩ := mem_map.1 hq
    obtain rfl : name = x := heq
    exact absurd hx hname

variable (C) in
/-- The names that are not declared get their series. -/
theorem adds_historyStmts : (names : List String) → Adds C [] (historyStmts env names)
  | [] => adds_pure once_nil rfl
  | name :: names => by
    refine fun s => (ensures_define name .plain).bind ?_
    rintro _ _ ⟨-, rfl⟩
    obtain ⟨hgrows, htaken⟩ := grows_define s name .plain
    refine (emitted_afterDeclare C htaken).bind fun series s₂ hseries => ?_
    exact (adds_historyStmts names s₂).bind fun code s₃ hcode =>
      ensures_pure ((hseries.after hgrows).append_nil hcode)

/-- Cells are declared under the names that they are given. -/
theorem quiet_cellStmts : (pairs : List (Program.Persistent × String)) →
    Quiet (cellStmts pairs) fun code =>
      stmtBlocks code = [] ∧ declaredNames code = pairs.map Prod.snd
  | [] => quiet_pure ⟨rfl, rfl⟩
  | (d, cell) :: pairs => by
    have hkey (name : String) : Quiet (seriesKey name) fun _ => True := by
      refine quiet_of_ensures fun s => (ensures_seriesKey name).mono ?_
      rintro _ _ rfl
      exact ⟨trivial, rfl, Nat.le_refl _, Nat.le_refl _⟩
    refine (hkey _).bind fun _ _ => (quiet_cellStmts pairs).bind fun code hcode =>
      quiet_pure ⟨hcode.1, ?_⟩
    rw [Script.declaredNames_cons, Script.declaredNames_cons, hcode.2]
    rfl

variable (C) in
/-- The prologue declares price series and series, and then the cells. -/
theorem ensures_prologue_once (program : Program) (hsources : env.indicator.sources.Nodup)
    (s : State) :
    Ensures (prologue env program) s fun code s' =>
      ∃ (names : List String) (front cells : List Script.Stmt), code = front ++ cells ∧
        Emitted C (names.map (.library, ·)) s front s' ∧
        (∀ x ∈ names, x ∈ env.indicator.sources) ∧ stmtBlocks cells = [] ∧
        declaredNames cells = Program.cellNames [] program.persistents := by
  have hnodup : (env.indicator.sortedSources.filter (· ∉ program.topLevelNames)).Nodup :=
    ((mergeSort_perm ..).nodup_iff.2 hsources).filter _
  refine (adds_sourceStmts C _ hnodup s).bind fun first s₁ hfirst => ?_
  refine (adds_historyStmts C _ s₁).bind fun second s₂ hsecond => ?_
  refine ((quiet_cellStmts _).ensures s₂).bind fun third s₃ hthird => ensures_pure ?_
  obtain ⟨⟨hblocks, hnames⟩, honward⟩ := hthird
  refine ⟨_, first ++ second, third, rfl, (hfirst.append_nil hsecond).grow honward.grows,
    fun x hx => (mergeSort_perm ..).mem_iff.1 (mem_filter.1 hx).1, hblocks, ?_⟩
  rw [hnames]
  exact map_snd_zip (by simp [Program.length_cellNames])

/-- **A program declares every name once**, if its blocks are distinct, its cells have different
names, and what it introduces may follow the price series that it reads. -/
theorem ensures_script_once {program : Program} (hdistinct : program.Distinct C)
    (hsources : env.indicator.sources.Nodup)
    (hfollow : ∀ x ∈ env.indicator.sources, ∀ q ∈ introducedNames program,
      MayFollow C (.library, x) q)
    (hcells : (Program.cellNames [] program.persistents).Nodup)
    (hmade : ∀ c ∈ Program.cellNames [] program.persistents, ∃ text, c = Script.cellName text)
    (s : State) :
    Ensures (do
      let first ← prologue env program
      return first ++ (← body env false program)) s fun code _ => OnceBlock C code := by
  refine (ensures_prologue_once C program hsources s).bind ?_
  rintro _ s₁ ⟨names, front, cells, rfl, hfront, hnames, hblocks, hcellNames⟩
  have hstmts : Adds C (introducedNames program) (body env false program) :=
    (treeLogic_once env C).body (fun s hs => (treeLogic_once env C).node (.stmt s)
      (each_stmts.1 hdistinct.2 s hs)) hdistinct.1 (.inl trivial) () false
  refine (hstmts s₁).bind fun rest s₂ hrest => ensures_pure ?_
  have hcross : ∀ p ∈ names.map (NameKind.library, ·), ∀ q ∈ introducedNames program,
      MayFollow C p q := by
    intro _ hp
    obtain ⟨x, hx, rfl⟩ := mem_map.1 hp
    exact hfollow x (hnames x hx)
  have hall := hfront.append hrest hcross
  -- the cells stand between statements that declare none of them
  have hapart : ∀ c ∈ declaredNames cells, ∀ x ∈ declaredNames (front ++ rest),
      ApartBut C c x := by
    rw [hcellNames]
    rintro c hc _ hx rfl
    obtain ⟨text, rfl⟩ := hmade c hc
    exact absurd hx (hall.cellName_notMem text)
  have hperm : (declaredNames (front ++ cells ++ rest)).Perm
      (declaredNames cells ++ declaredNames (front ++ rest)) := by
    simp only [Script.declaredNames_append]
    exact (perm_append_comm.append_right _).trans (.of_eq (append_assoc ..))
  refine once_cons.2 ⟨(hperm.pairwise_iff ApartBut.symm).2
    (pairwise_append.2 ⟨?_, hall.pairwise, hapart⟩), ?_⟩
  · rw [hcellNames]
    exact hcells.imp .of_ne
  · have honce := hall.once
    rw [Script.stmtBlocks_append] at honce
    rwa [Script.stmtBlocks_append, Script.stmtBlocks_append, hblocks, List.append_nil]

end Lowering

end Pine
