import Mathlib.Data.Finset.Card
import Mathlib.Data.Set.Basic
import Mathlib.Logic.Relation
import Mathlib.Order.Bounds.Basic
import Pine.Lowering.Declarations
import Pine.Reading
import Pine.Tree.Live

/-!
# Live functions are kept

The live names of a program are grown in rounds. They are the names that calls lead to from code
that runs, so that dropping the other functions is a matter of reachability in the graph of calls.
Names can as well be followed one by one from a list of those that wait, in whatever order the
calls of a function are taken: the names that are known in the end are the live ones.

A function that is replaced by a later one of its name is kept with it, but its calls do not count.

## Main results

* `Program.mem_liveNames`: the rounds find the live names.
* `Program.live_prune`: dropping dead functions leaves the live names as they are.
* `Worklist.known_iff_live`: following names one by one finds the live names.
* `Program.prune_live_functions`: what is kept of a program.
* `Program.mem_prune_of_called`: what is called from code that is kept is kept.
-/

namespace Pine

open List

/-- The name of a plain function declaration. -/
def Stmt.functionName? : Stmt → Option String
  | .func _ name _ _ _ => some name
  | _ => none

namespace Program

/-! ### Calls of a program -/

theorem mem_rootCalls {program : Program} {name : String} :
    name ∈ program.rootCalls ↔ ∃ s ∈ program, s.functionName? = none ∧ name ∈ s.calls := by
  rw [rootCalls, mem_flatMap]
  refine exists_congr fun s => and_congr_right fun _ => ?_
  cases s <;> simp [Stmt.functionName?]

theorem callTable_eq (program : Program) : program.callTable =
    program.reverse.filterMap fun s => s.functionName?.map fun name => (name, s.calls) := by
  rw [callTable]
  congr 1
  funext s
  cases s <;> rfl

theorem prune_eq (program : Program) : program.prune =
    program.filter fun s => s.functionName?.all fun name => decide (name ∈ program.liveNames) := by
  rw [prune]
  congr 1
  funext s
  cases s <;> simp [Stmt.functionName?]

/-- The names that the function of a name calls; of several functions the last one counts. -/
def callsOf (program : Program) (name : String) : List String :=
  (program.callTable.lookup name).getD []

theorem callsOf_of_last {program : Program} {before after : List Stmt} {s : Stmt} {name : String}
    (hsplit : program = before ++ s :: after) (hs : s.functionName? = some name)
    (hlast : ∀ t ∈ after, t.functionName? ≠ some name) : program.callsOf name = s.calls := by
  have hafter : (after.reverse.filterMap fun t =>
      t.functionName?.map fun name => (name, t.calls)).lookup name = none := by
    refine lookup_eq_none_iff.2 fun p hp => ?_
    obtain ⟨t, ht, hname⟩ := mem_filterMap.1 hp
    obtain ⟨other, hother, rfl⟩ := Option.map_eq_some_iff.1 hname
    have hne : other ≠ name := fun heq => hlast t (mem_reverse.1 ht) (heq ▸ hother)
    simpa using hne.symm
  rw [callsOf, callTable_eq, hsplit, reverse_append, reverse_cons, append_assoc,
    filterMap_append, lookup_append, hafter, Option.none_or]
  simp [hs]

theorem exists_of_mem_callsOf {program : Program} {caller name : String}
    (h : name ∈ program.callsOf caller) :
    ∃ s ∈ program, s.functionName? = some caller ∧ name ∈ s.calls := by
  cases hlookup : program.callTable.lookup caller with
  | none => simp [callsOf, hlookup] at h
  | some calls =>
    obtain ⟨l₁, l₂, htable, -⟩ := lookup_eq_some_iff.1 hlookup
    have hmem : (caller, calls) ∈ program.callTable := by simp [htable]
    rw [callTable_eq, mem_filterMap] at hmem
    obtain ⟨s, hs, hpair⟩ := hmem
    obtain ⟨_, hname, hpair⟩ := Option.map_eq_some_iff.1 hpair
    cases hpair
    refine ⟨s, mem_reverse.1 hs, hname, ?_⟩
    simpa [callsOf, hlookup] using h

/-! ### Rounds -/

section Rounds

variable {table : List (String × List String)} {live : List String}

theorem mem_newCalls {name : String} : name ∈ newCalls table live ↔
    (∃ caller ∈ live, name ∈ (table.lookup caller).getD []) ∧ name ∉ live := by
  rw [newCalls, mem_filter, mem_flatMap, decide_eq_true_iff]

theorem grow_of_newCalls_eq_nil (h : newCalls table live = []) (n : Nat) :
    grow table n live = live := by
  cases n with
  | zero => rfl
  | succ n => rw [grow, h]

theorem grow_of_newCalls_ne_nil (h : newCalls table live ≠ []) (n : Nat) :
    grow table (n + 1) live = grow table n (live ++ (newCalls table live).eraseDups) := by
  rw [grow]
  split
  · contradiction
  · rfl

/-- What holds of names at the start and of the names that they call holds of the grown names. -/
theorem forall_mem_grow {P : String → Prop}
    (hcalls : ∀ caller, P caller → ∀ name ∈ (table.lookup caller).getD [], P name) (n : Nat)
    (hlive : ∀ name ∈ live, P name) : ∀ name ∈ grow table n live, P name := by
  induction n generalizing live with
  | zero => exact hlive
  | succ n ih =>
    by_cases hnew : newCalls table live = []
    · rwa [grow_of_newCalls_eq_nil hnew]
    · rw [grow_of_newCalls_ne_nil hnew]
      refine ih (forall_mem_append.2 ⟨hlive, fun name hname => ?_⟩)
      obtain ⟨⟨caller, hcaller, hcall⟩, -⟩ := mem_newCalls.1 (mem_eraseDups.1 hname)
      exact hcalls caller (hlive caller hcaller) name hcall

theorem subset_grow (n : Nat) : live ⊆ grow table n live := by
  induction n generalizing live with
  | zero => exact List.Subset.refl live
  | succ n ih =>
    by_cases hnew : newCalls table live = []
    · rw [grow_of_newCalls_eq_nil hnew]
      exact List.Subset.refl live
    · rw [grow_of_newCalls_ne_nil hnew]
      exact fun name hname => ih (mem_append_left _ hname)

/-- A round that adds no function is followed by a round that adds nothing. -/
theorem newCalls_append_eq_nil {new : List String} (hnew : newCalls table live ⊆ new)
    (hnone : ∀ p ∈ table, p.1 ∈ new → p.1 ∈ live) : newCalls table (live ++ new) = [] := by
  refine eq_nil_iff_forall_not_mem.2 fun name hname => ?_
  obtain ⟨⟨caller, hcaller, hcall⟩, hfresh⟩ := mem_newCalls.1 hname
  rw [mem_append, not_or] at hfresh
  -- only functions call anything, and the functions among the callers were live before
  have hlive : caller ∈ live := by
    rcases mem_append.1 hcaller with h | h
    · exact h
    · cases hlookup : table.lookup caller with
      | none => simp [hlookup] at hcall
      | some calls =>
        obtain ⟨l₁, l₂, rfl, -⟩ := lookup_eq_some_iff.1 hlookup
        exact hnone (caller, calls) (by simp) h
  exact hfresh.2 (hnew (mem_newCalls.2 ⟨⟨caller, hlive, hcall⟩, hfresh.1⟩))

/-- **With more rounds than there are dead functions, no call leaves the grown names.** -/
theorem newCalls_grow_eq_nil (n : Nat) (h : (table.countP fun p => p.1 ∉ live) < n) :
    newCalls table (grow table n live) = [] := by
  induction n generalizing live with
  | zero => exact absurd h (Nat.not_lt_zero _)
  | succ n ih =>
    by_cases hnew : newCalls table live = []
    · rw [grow_of_newCalls_eq_nil hnew]
      exact hnew
    rw [grow_of_newCalls_ne_nil hnew]
    by_cases hfunc : ∃ p ∈ table, p.1 ∈ (newCalls table live).eraseDups ∧ p.1 ∉ live
    · refine ih (Nat.lt_of_lt_of_le ?_ (Nat.lt_succ_iff.1 h))
      obtain ⟨p, hp, hadded, hdead⟩ := hfunc
      obtain ⟨l₁, l₂, rfl⟩ := append_of_mem hp
      have hmono (l : List (String × List String)) (new : List String) :
          (l.countP fun q => q.1 ∉ live ++ new) ≤ l.countP fun q => q.1 ∉ live :=
        countP_mono_left fun q _ hq => by simp_all
      rw [countP_append, countP_append, countP_cons_of_neg (by simp [hadded]),
        countP_cons_of_pos (by simpa using hdead)]
      exact Nat.add_lt_add_of_le_of_lt (hmono l₁ _) (Nat.lt_succ_of_le (hmono l₂ _))
    · have hnone : newCalls table (live ++ (newCalls table live).eraseDups) = [] := by
        refine newCalls_append_eq_nil (fun name hname => mem_eraseDups.2 hname) ?_
        intro p hp hadded
        by_contra hdead
        exact hfunc ⟨p, hp, hadded, hdead⟩
      rw [grow_of_newCalls_eq_nil hnone]
      exact hnone

end Rounds

/-! ### Live names -/

/-- The names that calls lead to from code that runs. -/
inductive Live (program : Program) : String → Prop
  /-- A name that is called outside of plain functions. -/
  | root {name : String} (h : name ∈ program.rootCalls) : Live program name
  /-- A name that is called by the function of a live name. -/
  | call {caller name : String} (hcaller : Live program caller)
      (h : name ∈ program.callsOf caller) : Live program name

/-- **The rounds find the live names.** -/
theorem mem_liveNames {program : Program} {name : String} :
    name ∈ program.liveNames ↔ program.Live name := by
  constructor
  · refine forall_mem_grow (fun caller hcaller name hname => .call hcaller hname) _ ?_ name
    exact fun name hname => .root (mem_eraseDups.1 hname)
  · intro h
    induction h with
    | root h => exact subset_grow _ (mem_eraseDups.2 h)
    | @call caller name _ h ih =>
      have hclosed : newCalls program.callTable program.liveNames = [] :=
        newCalls_grow_eq_nil _ (Nat.lt_succ_of_le countP_le_length)
      by_contra hfresh
      have hnew : name ∈ newCalls program.callTable program.liveNames :=
        mem_newCalls.2 ⟨⟨caller, ih, h⟩, hfresh⟩
      rw [hclosed] at hnew
      exact not_mem_nil hnew

theorem mem_prune {program : Program} {s : Stmt} : s ∈ program.prune ↔
    s ∈ program ∧ ∀ name ∈ s.functionName?, program.Live name := by
  rw [prune_eq, mem_filter, Option.all_eq_true]
  simp only [decide_eq_true_eq, mem_liveNames, Option.mem_def]

/-! ### Pruning again -/

section Prune

variable {program : Program} {name : String}

theorem rootCalls_prune (program : Program) : program.prune.rootCalls = program.rootCalls := by
  have hfilter (keep : Stmt → Bool) (hkeep : ∀ s : Stmt, s.functionName? = none → keep s = true)
      (ss : List Stmt) : rootCalls (ss.filter keep) = rootCalls ss := by
    induction ss with
    | nil => rfl
    | cons s ss ih =>
      have hcons : rootCalls (s :: ss) = rootCalls [s] ++ rootCalls ss := by simp [rootCalls]
      by_cases hs : keep s = true
      · rw [filter_cons_of_pos hs, hcons, ← ih]
        simp [rootCalls]
      · rw [filter_cons_of_neg hs, hcons, ih]
        cases s with
        | func => rfl
        | _ => exact absurd (hkeep _ rfl) hs
  rw [prune_eq]
  exact hfilter _ (fun s hs => by simp [hs]) program

/-- All functions of a live name are kept, so that the last one still counts. -/
theorem callsOf_prune (h : program.Live name) :
    program.prune.callsOf name = program.callsOf name := by
  have hlookup (table : List (String × List String)) :
      (table.filter fun p => decide (p.1 ∈ program.liveNames)).lookup name =
        table.lookup name := by
    induction table with
    | nil => rfl
    | cons p table ih =>
      by_cases hp : p.1 ∈ program.liveNames
      · rw [filter_cons_of_pos (by simpa using hp), lookup_cons, lookup_cons, ih]
      · have hne : (name == p.1) = false := by
          rw [beq_eq_false_iff_ne]
          rintro rfl
          exact hp (mem_liveNames.2 h)
        rw [filter_cons_of_neg (by simpa using hp), lookup_cons, hne, ih]
  have htable : program.prune.callTable =
      program.callTable.filter fun p => decide (p.1 ∈ program.liveNames) := by
    rw [callTable_eq, callTable_eq, prune_eq, ← filter_reverse, filterMap_filter,
      filter_filterMap]
    congr 1
    funext s
    cases s.functionName? with
    | none => rfl
    | some caller => by_cases hlive : caller ∈ program.liveNames <;> simp [hlive, Option.filter]
  rw [callsOf, callsOf, htable, hlookup]

/-- **Dropping dead functions leaves the live names as they are.** -/
theorem live_prune : program.prune.Live name ↔ program.Live name := by
  constructor
  · intro h
    induction h with
    | root h => exact .root (rootCalls_prune program ▸ h)
    | call _ h ih => exact .call ih (callsOf_prune ih ▸ h)
  · intro h
    induction h with
    | root h => exact .root ((rootCalls_prune program).symm ▸ h)
    | call hcaller h ih => exact .call ih (callsOf_prune hcaller ▸ h)

theorem prune_prune (program : Program) : program.prune.prune = program.prune := by
  rw [prune_eq program.prune, filter_eq_self]
  intro s hs
  rw [Option.all_eq_true]
  intro name hname
  rw [decide_eq_true_iff, mem_liveNames, live_prune]
  exact (mem_prune.1 hs).2 name hname

end Prune

/-! ### Sets that calls do not leave -/

/-- A set of names that holds what is called outside of plain functions and what is called by the
functions in it. -/
structure CallClosed (program : Program) (names : Set String) : Prop where
  roots : ∀ s ∈ program, s.functionName? = none → ∀ name ∈ s.calls, name ∈ names
  calls : ∀ s ∈ program, ∀ caller ∈ s.functionName?, caller ∈ names → ∀ name ∈ s.calls, name ∈ names

theorem CallClosed.mem_of_live {program : Program} {names : Set String} {name : String}
    (hclosed : program.CallClosed names) (h : program.Live name) : name ∈ names := by
  induction h with
  | root h =>
    obtain ⟨s, hs, hplain, hcall⟩ := mem_rootCalls.1 h
    exact hclosed.roots s hs hplain _ hcall
  | call _ h ih =>
    obtain ⟨s, hs, hname, hcall⟩ := exists_of_mem_callsOf h
    exact hclosed.calls s hs _ hname ih _ hcall

/-- What is called by code that runs is live; of the functions of a name only the last one runs. -/
theorem live_of_mem_calls {program : Program} {before after : List Stmt} {s : Stmt} {name : String}
    (hsplit : program = before ++ s :: after)
    (hlive : ∀ caller ∈ s.functionName?, program.Live caller)
    (hlast : ∀ caller ∈ s.functionName?, ∀ t ∈ after, t.functionName? ≠ some caller)
    (hcall : name ∈ s.calls) : program.Live name := by
  cases hs : s.functionName? with
  | none => exact .root (mem_rootCalls.2 ⟨s, by simp [hsplit], hs, hcall⟩)
  | some caller =>
    refine .call (hlive caller hs) ?_
    rwa [callsOf_of_last hsplit hs (hlast caller hs)]

/-- **If functions have different names, the live names are the least set that calls do not
leave.** -/
theorem isLeast_live {program : Program} (h : (program.filterMap Stmt.functionName?).Nodup) :
    IsLeast {names | program.CallClosed names} {name | program.Live name} := by
  refine ⟨⟨fun s hs hplain name hcall => ?_, fun s hs caller hcaller hlive name hcall => ?_⟩,
    fun names hclosed name hname => hclosed.mem_of_live hname⟩
  · exact .root (mem_rootCalls.2 ⟨s, hs, hplain, hcall⟩)
  · obtain ⟨before, after, hsplit⟩ := append_of_mem hs
    refine live_of_mem_calls hsplit (fun _ hname => ?_) (fun _ hname t ht hagain => ?_) hcall
    · cases hcaller.symm.trans hname
      exact hlive
    · rw [hsplit, filterMap_append, filterMap_cons_some hname] at h
      have hnotMem := (nodup_cons.1 (nodup_append.1 h).2.1).1
      exact hnotMem (mem_filterMap.2 ⟨t, ht, hagain⟩)

end Program

/-! ### Following names one by one -/

/-- The names that are known to be called, and those among them that were not followed yet. -/
structure Worklist where
  /-- The known names. -/
  known : List String
  /-- The names that wait, the next one first. -/
  waiting : List String

namespace Worklist

variable {program : Program} {w w' : Worklist} {name : String} {names : List String}

/-- A name that is called; it waits if it was not known. -/
def note (w : Worklist) (name : String) : Worklist :=
  if name ∈ w.known then w else ⟨name :: w.known, w.waiting ++ [name]⟩

/-- Names that are called, one after the other. -/
def noteAll (w : Worklist) (names : List String) : Worklist := names.foldl note w

/-- The calls outside of plain functions are taken statement by statement, those of a statement in
any order. -/
inductive Roots : List Stmt → Worklist → Worklist → Prop
  | nil (w : Worklist) : Roots [] w w
  | skip {s : Stmt} {ss : List Stmt} {w w' : Worklist} (hs : s.functionName? ≠ none)
      (h : Roots ss w w') : Roots (s :: ss) w w'
  | take {s : Stmt} {ss : List Stmt} {w w' : Worklist} {order : List String}
      (hs : s.functionName? = none) (horder : ∀ name, name ∈ order ↔ name ∈ s.calls)
      (h : Roots ss (w.noteAll order) w') : Roots (s :: ss) w w'

/-- The first name that waits is followed: the calls of its function are taken in any order. -/
inductive Step (program : Program) : Worklist → Worklist → Prop
  | follow {name : String} {known waiting order : List String}
      (horder : ∀ callee, callee ∈ order ↔ callee ∈ program.callsOf name) :
      Step program ⟨known, name :: waiting⟩ ((⟨known, waiting⟩ : Worklist).noteAll order)

theorem mem_known_noteAll :
    name ∈ (w.noteAll names).known ↔ name ∈ w.known ∨ name ∈ names := by
  induction names generalizing w with
  | nil => simp [noteAll]
  | cons first names ih =>
    have hnote : name ∈ (w.note first).known ↔ name ∈ w.known ∨ name = first := by
      unfold note
      split
      · next hknown => exact ⟨.inl, fun h => h.elim id fun heq => heq ▸ hknown⟩
      · rw [mem_cons, or_comm]
    exact ih.trans (by rw [hnote, mem_cons, or_assoc])

/-- A name waits if it did so before or was not known. -/
theorem mem_waiting_noteAll :
    name ∈ (w.noteAll names).waiting ↔ name ∈ w.waiting ∨ name ∈ names ∧ name ∉ w.known := by
  induction names generalizing w with
  | nil => simp [noteAll]
  | cons first names ih =>
    refine ih.trans ?_
    unfold note
    split
    · next hknown =>
      refine or_congr_right (and_congr_left fun hfresh => ?_)
      rw [mem_cons, or_iff_right]
      rintro rfl
      exact hfresh hknown
    · by_cases hname : name = first
      · simp [*]
      · simp [hname]

/-- What is known is live, and what was followed has its calls known. -/
structure Follows (program : Program) (w : Worklist) : Prop where
  live : ∀ name ∈ w.known, program.Live name
  known : w.waiting ⊆ w.known
  followed : ∀ caller ∈ w.known, caller ∉ w.waiting → program.callsOf caller ⊆ w.known

theorem Follows.noteAll (h : w.Follows program) (hnames : ∀ name ∈ names, program.Live name) :
    (w.noteAll names).Follows program := by
  refine ⟨fun name hname => ?_, fun name hname => ?_, fun caller hcaller hdone => ?_⟩
  · exact (mem_known_noteAll.1 hname).elim (h.live name) (hnames name)
  · exact mem_known_noteAll.2 ((mem_waiting_noteAll.1 hname).imp (@h.known name) And.left)
  · rw [mem_waiting_noteAll, not_or, not_and_not_right] at hdone
    have hknown : caller ∈ w.known := (mem_known_noteAll.1 hcaller).elim id hdone.2
    exact fun name hname => mem_known_noteAll.2 (.inl (h.followed caller hknown hdone.1 hname))

/-- **A step keeps that known names are live and that followed names have their calls known.** -/
theorem Follows.step (h : w.Follows program) (hstep : Step program w w') : w'.Follows program := by
  obtain @⟨name, known, waiting, order, horder⟩ := hstep
  have hname : name ∈ known := h.known (mem_cons_self ..)
  refine ⟨fun callee hcallee => ?_, fun callee hcallee => ?_, fun caller hcaller hdone => ?_⟩
  · rcases mem_known_noteAll.1 hcallee with hcallee | hcallee
    · exact h.live callee hcallee
    · exact .call (h.live name hname) ((horder callee).1 hcallee)
  · refine mem_known_noteAll.2 ((mem_waiting_noteAll.1 hcallee).imp (fun hwaits => ?_) And.left)
    exact h.known (mem_cons_of_mem _ hwaits)
  · rw [mem_waiting_noteAll, not_or, not_and_not_right] at hdone
    have hknown : caller ∈ known := (mem_known_noteAll.1 hcaller).elim id hdone.2
    intro callee hcallee
    by_cases hsame : caller = name
    · exact mem_known_noteAll.2 (.inr ((horder callee).2 (hsame ▸ hcallee)))
    · refine mem_known_noteAll.2 (.inl (h.followed caller hknown ?_ hcallee))
      rw [mem_cons, not_or]
      exact ⟨hsame, hdone.1⟩

theorem Follows.steps (h : w.Follows program)
    (hsteps : Relation.ReflTransGen (Step program) w w') : w'.Follows program := by
  induction hsteps with
  | refl => exact h
  | tail _ hstep ih => exact ih.step hstep

theorem known_subset_of_steps (h : Relation.ReflTransGen (Step program) w w') :
    w.known ⊆ w'.known := by
  induction h with
  | refl => exact List.Subset.refl _
  | tail _ hstep ih =>
    obtain ⟨-⟩ := hstep
    exact fun name hname => mem_known_noteAll.2 (.inl (ih hname))

/-- The calls outside of plain functions are known after they were taken. -/
theorem mem_known_of_roots {ss : List Stmt} (h : Roots ss w w') :
    name ∈ w'.known ↔ name ∈ w.known ∨ name ∈ Program.rootCalls ss := by
  induction h with
  | nil w => simp [Program.rootCalls]
  | @skip s ss w w' hs _ ih =>
    rw [ih, Program.mem_rootCalls, Program.mem_rootCalls]
    simp [hs]
  | @take s ss w w' order hs horder _ ih =>
    rw [ih, mem_known_noteAll, horder, Program.mem_rootCalls, Program.mem_rootCalls]
    simp [hs, or_assoc]

theorem follows_of_roots {ss : List Stmt} (h : Roots ss w w') (hw : w.Follows program)
    (hroots : ∀ name ∈ Program.rootCalls ss, program.Live name) : w'.Follows program := by
  induction h with
  | nil => exact hw
  | @skip s ss _ _ hs _ ih =>
    refine ih hw fun name hname => hroots name ?_
    obtain ⟨t, ht, hcall⟩ := Program.mem_rootCalls.1 hname
    exact Program.mem_rootCalls.2 ⟨t, mem_cons_of_mem _ ht, hcall⟩
  | @take s ss _ _ order hs horder _ ih =>
    refine ih (hw.noteAll fun name hname => hroots name ?_) fun name hname => hroots name ?_
    · exact Program.mem_rootCalls.2 ⟨s, mem_cons_self .., hs, (horder name).1 hname⟩
    · obtain ⟨t, ht, hcall⟩ := Program.mem_rootCalls.1 hname
      exact Program.mem_rootCalls.2 ⟨t, mem_cons_of_mem _ ht, hcall⟩

/-- **Following names one by one finds the live names**, in whatever order calls are taken. -/
theorem known_iff_live {start : Worklist} (hroots : Roots program ⟨[], []⟩ start)
    (hsteps : Relation.ReflTransGen (Step program) start w) (hdone : w.waiting = []) :
    name ∈ w.known ↔ program.Live name := by
  have hempty : Follows program ⟨[], []⟩ := ⟨nofun, nofun, nofun⟩
  have hfollows := (follows_of_roots hroots hempty fun _ => .root).steps hsteps
  refine ⟨hfollows.live name, fun hlive => ?_⟩
  induction hlive with
  | root h =>
    exact known_subset_of_steps hsteps ((mem_known_of_roots hroots).2 (.inr h))
  | @call caller name _ h ih =>
    exact hfollows.followed caller ih (by simp [hdone]) h

/-! ### Runs end -/

/-- The called names of a program that are not known, and those that wait. -/
def pending (program : Program) (w : Worklist) : Nat :=
  ((program.flatMap Stmt.calls).toFinset \ w.known.toFinset).card + w.waiting.length

theorem pending_note (h : name ∈ program.flatMap Stmt.calls) :
    (w.note name).pending program = w.pending program := by
  unfold note
  split
  · rfl
  · next hfresh =>
    have hmem : name ∈ (program.flatMap Stmt.calls).toFinset \ w.known.toFinset := by
      simpa [hfresh] using h
    have hcard := Finset.card_erase_add_one hmem
    rw [pending, pending, toFinset_cons, Finset.sdiff_insert, length_append,
      length_singleton]
    omega

theorem pending_noteAll (h : ∀ name ∈ names, name ∈ program.flatMap Stmt.calls) :
    (w.noteAll names).pending program = w.pending program := by
  induction names generalizing w with
  | nil => rfl
  | cons first names ih =>
    obtain ⟨hfirst, hnames⟩ := forall_mem_cons.1 h
    exact (ih hnames).trans (pending_note hfirst)

/-- A step follows one name for good. -/
theorem pending_step (h : Step program w w') : w'.pending program + 1 = w.pending program := by
  obtain @⟨name, known, waiting, order, horder⟩ := h
  rw [pending_noteAll fun callee hcallee => ?_, pending, pending, length_cons, Nat.add_assoc]
  obtain ⟨s, hs, -, hcall⟩ := Program.exists_of_mem_callsOf ((horder callee).1 hcallee)
  exact mem_flatMap_of_mem hs hcall

/-- **Following names comes to an end**, in whatever order calls are taken. -/
theorem wellFounded_step (program : Program) : WellFounded (flip (Step program)) := by
  refine Subrelation.wf (fun {w' w} h => ?_) (measure (pending program)).wf
  change w'.pending program < w.pending program
  have := pending_step h
  omega

/-- The names that can be known when all calls of a program have been followed. -/
def Outcome (program : Program) (known : List String) : Prop :=
  ∃ start, Roots program ⟨[], []⟩ start ∧
    Relation.ReflTransGen (Step program) start ⟨known, []⟩

theorem exists_roots (ss : List Stmt) (w : Worklist) : ∃ w', Roots ss w w' := by
  induction ss generalizing w with
  | nil => exact ⟨w, .nil w⟩
  | cons s ss ih =>
    by_cases hs : s.functionName? = none
    · obtain ⟨w', h⟩ := ih (w.noteAll s.calls)
      exact ⟨w', .take hs (fun _ => Iff.rfl) h⟩
    · obtain ⟨w', h⟩ := ih w
      exact ⟨w', .skip hs h⟩

theorem exists_outcome (program : Program) : ∃ known, Outcome program known := by
  have hrun (w : Worklist) : ∃ known, Relation.ReflTransGen (Step program) w ⟨known, []⟩ := by
    induction w using (wellFounded_step program).induction with
    | _ w ih =>
      obtain ⟨known, waiting⟩ := w
      cases waiting with
      | nil => exact ⟨known, .refl⟩
      | cons name waiting =>
        have hstep : Step program ⟨known, name :: waiting⟩ _ := .follow fun _ => Iff.rfl
        obtain ⟨known', hsteps⟩ := ih _ hstep
        exact ⟨known', .head hstep hsteps⟩
  obtain ⟨start, hroots⟩ := exists_roots program ⟨[], []⟩
  obtain ⟨known, hsteps⟩ := hrun start
  exact ⟨known, start, hroots, hsteps⟩

end Worklist

/-! ### What is kept -/

namespace Program

open Classical in
/-- **Dropping dead functions keeps exactly the live ones.** If the functions of a program have
different names, then what is kept are, in their order, all statements other than plain functions,
and the functions whose names are in the least set that holds what is called outside of plain
functions and what is called by the functions in it. For any program, following calls from a list
of names that wait comes to an end in whatever order the calls of a statement are taken, and keeps
the same statements; and dropping dead functions again drops nothing. -/
theorem prune_live_functions (program : Program) :
    ((program.filterMap Stmt.functionName?).Nodup →
      ∃ live, IsLeast {names | program.CallClosed names} live ∧
        program.prune = program.filter fun s => ∀ name ∈ s.functionName?, name ∈ live) ∧
    (WellFounded (flip (Worklist.Step program)) ∧ (∃ known, Worklist.Outcome program known) ∧
      ∀ known, Worklist.Outcome program known →
        program.filter (fun s => ∀ name ∈ s.functionName?, name ∈ known) = program.prune) ∧
    program.prune.prune = program.prune := by
  have hkept (keep : Stmt → Bool)
      (hkeep : ∀ s, keep s = true ↔ ∀ name ∈ s.functionName?, program.Live name) :
      program.prune = program.filter keep := by
    rw [prune_eq]
    refine filter_congr fun s _ => ?_
    rw [Bool.eq_iff_iff, hkeep, Option.all_eq_true]
    simp only [decide_eq_true_eq, mem_liveNames, Option.mem_def]
  refine ⟨fun hdistinct => ?_, ⟨Worklist.wellFounded_step program, Worklist.exists_outcome program,
    fun known houtcome => ?_⟩, prune_prune program⟩
  · exact ⟨{name | program.Live name}, isLeast_live hdistinct,
      hkept _ fun _ => decide_eq_true_iff⟩
  · obtain ⟨start, hroots, hsteps⟩ := houtcome
    refine (hkept _ fun s => ?_).symm
    rw [decide_eq_true_iff]
    exact forall₂_congr fun name _ => Worklist.known_iff_live hroots hsteps rfl

/-- Two functions call each other, and a method calls the first of them; another function calls only
itself. The method is called, and an exported function is there. -/
def callers : Program :=
  let call (name : String) : Stmt := .expr ⟨1, 1⟩ (.call ⟨1, 1⟩ 0 (.name ⟨1, 1⟩ name) [] [])
  [.func ⟨1, 1⟩ "even" [] [call "odd"] false, .func ⟨2, 1⟩ "odd" [] [call "even"] false,
    .func ⟨3, 1⟩ "dead" [] [call "dead"] false,
    .func ⟨4, 1⟩ "update" [⟨"self", "Point"⟩] [call "even"] true,
    .exported ⟨5, 1⟩ (.func ⟨5, 8⟩ "api" [] [] false),
    .expr ⟨6, 1⟩ (.call ⟨6, 1⟩ 0 (.member ⟨6, 1⟩ (.name ⟨6, 1⟩ "p") "update") [] [])]

open Classical in
theorem prune_live_functions_callers :
    (callers.filterMap Stmt.functionName?).Nodup ∧
    (∃ live, IsLeast {names | callers.CallClosed names} live ∧
      callers.prune = callers.filter fun s => ∀ name ∈ s.functionName?, name ∈ live) ∧
    callers.prune.filterMap Stmt.functionName? = ["even", "odd", "update"] ∧
    callers.prune.length = 5 :=
  ⟨by decide, (prune_live_functions callers).1 (by decide), by decide, by decide⟩

/-- **What is called from code that is kept is kept**, except from a function that a later one of
its name replaces: such a function is kept with the later one, but its calls do not count. -/
theorem mem_prune_of_called {program : Program} {before after : List Stmt} {s callee : Stmt}
    {name : String} (hsplit : program = before ++ s :: after) (hkept : s ∈ program.prune)
    (hcall : name ∈ s.calls) (hcallee : callee ∈ program)
    (hname : (Declarations.declaredBy callee).functionName? = some name) :
    callee ∈ program.prune ∨
      ∃ f, s.functionName? = some f ∧ ∃ t ∈ after, t.functionName? = some f := by
  by_cases hlast : ∀ f ∈ s.functionName?, ∀ t ∈ after, t.functionName? ≠ some f
  · have hlive := live_of_mem_calls hsplit (mem_prune.1 hkept).2 hlast hcall
    refine .inl (mem_prune.2 ⟨hcallee, fun f hf => ?_⟩)
    -- a plain function is what it declares
    cases callee with
    | func => cases hname.symm.trans hf; exact hlive
    | _ => cases hf
  · push Not at hlast
    obtain ⟨f, hf, t, ht, hagain⟩ := hlast
    exact .inr ⟨f, hf, t, ht, hagain⟩

/-- Two functions of one name, each of which calls a function of its own. -/
def overloads : Program :=
  let call (name : String) : Stmt := .expr ⟨1, 1⟩ (.call ⟨1, 1⟩ 0 (.name ⟨1, 1⟩ name) [] [])
  [.func ⟨1, 1⟩ "f" [⟨"x", ""⟩] [call "h"] false,
    .func ⟨2, 1⟩ "f" [⟨"x", ""⟩, ⟨"y", ""⟩] [call "g"] false,
    .func ⟨3, 1⟩ "g" [] [] false, .func ⟨4, 1⟩ "h" [] [] false, call "f"]

theorem mem_prune_of_called_overloads :
    overloads[1] ∈ overloads.prune ∧ "g" ∈ overloads[1].calls ∧
      overloads[2].functionName? = some "g" ∧ overloads[2] ∈ overloads.prune := by
  have hlive : overloads.Live "f" := .root (by decide)
  have hkept : overloads[1] ∈ overloads.prune :=
    mem_prune.2 ⟨getElem_mem _, fun _ h => Option.some.inj h ▸ hlive⟩
  refine ⟨hkept, by decide, rfl, ?_⟩
  have hcallee := @mem_prune_of_called overloads (overloads.take 1) (overloads.drop 2) overloads[1]
    overloads[2] "g" rfl hkept (by decide) (getElem_mem _) rfl
  refine hcallee.resolve_right ?_
  rintro ⟨f, hf, t, ht, hagain⟩
  have hnone : ∀ t ∈ overloads.drop 2, t.functionName? ≠ some "f" := by decide
  exact hnone t ht (hagain.trans hf.symm)

end Program

end Pine
