import Mathlib.Data.List.Nodup
import Pine.Proofs.Lowering.Bodies

/-!
# The guards of loops

A script declares a counter in front of every loop, and the body of the loop starts with a guard
that increments the counter and stops the script past a limit. The counter is declared and guarded
by the same step, so that the two carry one number wherever the loop stands. Numbers are handed out
one after the other, and what is lowered twice is numbered twice, so that no two loops of a script
share a counter: a loop inside of another one does not reset the counter of the other.
-/

namespace Pine

open List

namespace Script

/-- A loop is a line with its head, the lines of its body and a line that closes it. -/
theorem text_loop {s : Stmt} {body : List Stmt} (h : s.loopBody? = some body) (depth : Nat) :
    ∃ head, s.text depth = line depth head ++ stmtsText (depth + 1) body ++ line depth "\x7d" := by
  cases s <;> cases h <;> exact ⟨_, rfl⟩

/-- The text of a loop behind its counter, with the guard of the counter in its first line. -/
theorem text_guardedLoop {s : Stmt} {n limit : Nat} {inner : List Stmt}
    (h : s.loopBody? = some (.guard n limit :: inner)) (depth : Nat) :
    ∃ head, stmtsText depth [.counter n, s] =
      line depth ("let " ++ loopName n ++ " = 0;") ++ line depth head ++
        line (depth + 1) ("if (++" ++ loopName n ++ " > " ++ toString limit ++
          ") throw new Error(" ++ Text.escaped (loopMessage limit) ++ ");") ++
        stmtsText (depth + 1) inner ++ line depth "\x7d" := by
  obtain ⟨head, htext⟩ := text_loop h depth
  refine ⟨head, ?_⟩
  rw [stmtsText, stmtsText, stmtsText, htext, stmtsText, Stmt.text, Stmt.text, String.append_empty]
  simp only [String.append_assoc]

/-- Every loop of a body comes right behind its counter and starts with the guard of the counter,
also in the text at any depth. -/
def Guarded (limit : Nat) (code : List Stmt) : Prop :=
  ∀ front s rest body, code = front ++ s :: rest → s.loopBody? = some body →
    ∃ earlier n inner, front = earlier ++ [.counter n] ∧ body = .guard n limit :: inner ∧
      ∀ depth, ∃ head, stmtsText depth [.counter n, s] =
        line depth ("let " ++ loopName n ++ " = 0;") ++ line depth head ++
          line (depth + 1) ("if (++" ++ loopName n ++ " > " ++ toString limit ++
            ") throw new Error(" ++ Text.escaped (loopMessage limit) ++ ");") ++
          stmtsText (depth + 1) inner ++ line depth "\x7d"

end Script

namespace Lowering

open Script

/-- What comes behind a counter has the counter in front. -/
theorem bodyLaw_guarded (limit : Nat) : BodyLaw (Guarded limit) limit where
  nil front _ _ _ hcode := by cases front <;> cases hcode
  append code rest h h' front s later body hcode hbody := by
    obtain ⟨us, rfl, hus⟩ | ⟨us, rfl, hus⟩ := append_eq_append_iff.1 hcode
    · obtain ⟨earlier, n, inner, rfl, hinner⟩ := h' us s later body hus hbody
      exact ⟨code ++ earlier, n, inner, (append_assoc ..).symm, hinner⟩
    · cases us with
      | nil =>
        obtain ⟨earlier, n, inner, hnil, -⟩ := h' [] s later body hus.symm hbody
        cases earlier <;> cases hnil
      | cons u us =>
        obtain ⟨rfl, -⟩ := List.cons.inj hus
        exact h front s us body rfl hbody
  plain t ht front s rest body hcode hbody := by
    obtain ⟨rfl, ⟨⟩⟩ | ⟨-, ⟨⟩⟩ := singleton_eq_append_iff.1 hcode
    cases t <;> cases hbody <;> cases ht
  native subject cases _ front s rest body hcode hbody := by
    obtain ⟨rfl, ⟨⟩⟩ | ⟨-, ⟨⟩⟩ := singleton_eq_append_iff.1 hcode
    cases hbody
  loop n t inner ht front s rest body hcode hbody := by
    rcases front with _ | ⟨_, _ | ⟨_, front⟩⟩
    · obtain ⟨rfl, -⟩ := List.cons.inj hcode
      cases hbody
    · obtain ⟨rfl, htail⟩ := List.cons.inj hcode
      obtain ⟨rfl, -⟩ := List.cons.inj htail
      obtain rfl := Option.some.inj (ht.symm.trans hbody)
      exact ⟨[], n, inner, rfl, rfl, text_guardedLoop ht⟩
    · simp at hcode

/-- Loops are numbered in a row. -/
instance : Ledger .counters where
  issued _ loops := (List.range' 1 loops).reverse
  issued_key _ _ _ := rfl
  issued_counter _ loops := by simp [List.range'_1_concat, Marks.counters, Nat.add_comm]

end Lowering

namespace Program

/-- **Every loop of a script is guarded by a counter of its own**, wherever the loop stands: at the
top, in functions, branches and cases, and in blocks inside of expressions. The counter is set to
zero right in front of the loop, the body starts with the guard that increments it and stops past
the limit of the options, or past the standard limit if they set none, and no two counters share a
number. -/
theorem loops_guarded {program : Program} {options : Lowering.Options} {indicator : Indicator}
    {d d' : Diagnostics} {script : Script}
    (h : program.lower options indicator d = (.ok script, d')) :
    script.Throughout (Script.Guarded
        (if options.loopLimit = 0 then Lowering.standardLoopLimit else options.loopLimit)) ∧
      script.counters.Nodup := by
  refine ⟨throughout_lower (Lowering.bodyLaw_guarded _) h, nodup_iff_count_le_one.2 fun n => ?_⟩
  obtain ⟨s, hs⟩ := exists_steps_of_lower h
  have hdraws : Lowering.DrawsStmts .counters (fun _ => True)
      (program.steps (program.context options indicator)) :=
    program.draws_steps (fun _ _ => trivial) fun _ _ => trivial
  have hcount := (hdraws _ _ _ hs).count n
  have hissued : (s.issued .counters).Nodup := nodup_reverse.2 nodup_range'
  rw [count_nil, Nat.zero_add] at hcount
  exact Nat.le_trans (Nat.le_of_add_right_le hcount) (nodup_iff_count_le_one.1 hissued n)

/-- A loop in a loop, and a loop in the value of the test of an arm, which is lowered twice. -/
def nestedLoops : Program :=
  let pos : Pos := ⟨1, 1⟩
  let loop (body : List Stmt) : Stmt := .whileLoop pos (.name pos "a") body
  [loop [loop [.brk pos]], .switch pos (.name pos "b")
    [.mk (.switch pos (.name pos "c") [.mk (.name pos "d") [loop [.expr pos (.name pos "e")]]])
      [loop [.ifElse pos (.name pos "f") [.brk pos] []], .brk pos]]]

theorem loops_guarded_nestedLoops : ∃ script d',
    nestedLoops.lower ⟨Registry.standard, 7, "main"⟩ {} {} = (.ok script, d') ∧
      script.Throughout (Script.Guarded 7) ∧ script.counters = [1, 2, 4, 5] ∧
      script.counters.Nodup := by
  have hok : (nestedLoops.lower ⟨Registry.standard, 7, "main"⟩ {} {}).1.toOption.map
      Script.counters = some [1, 2, 4, 5] := by with_unfolding_all decide
  generalize hrun : Program.lower _ _ _ _ = run at hok ⊢
  obtain ⟨_ | script, d'⟩ := run
  · cases hok
  · obtain ⟨hguarded, hnodup⟩ := loops_guarded hrun
    exact ⟨script, d', rfl, hguarded, Option.some.inj hok, hnodup⟩

end Program

end Pine
