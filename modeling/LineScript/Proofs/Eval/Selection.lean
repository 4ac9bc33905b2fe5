import LineScript.Proofs.Eval.Constancy
import LineScript.Proofs.Eval.Steps
import Mathlib

/-!
# LineScript.Proofs.Eval.Selection

Leaving out statements.  The records of a run are its variables too, but only the record
of an assignment gives a name a value.  So any other top-level statement can be left out,
and those that are kept leave the same records and print the same texts.

* `Runs.leaves` — the record of each step is one that its statement can leave;
* `evaluate_selected` — the run of the statements that are kept.
-/

namespace LineScript

/-! ## positions -/

/-- The elements of a list at the positions to keep, in order. -/
def selected {α : Type} (kept : Nat → Bool) : List α → List α
  | [] => []
  | x :: xs =>
    let rest := selected (fun i => kept (i + 1)) xs
    if kept 0 then x :: rest else rest

section

variable {α β : Type} {kept : Nat → Bool}

theorem selected_cons_of_pos (h : kept 0 = true) (x : α) (xs : List α) :
    selected kept (x :: xs) = x :: selected (fun i => kept (i + 1)) xs := by
  simp [selected, h]

theorem selected_cons_of_neg (h : ¬kept 0 = true) (x : α) (xs : List α) :
    selected kept (x :: xs) = selected (fun i => kept (i + 1)) xs := by
  simp [selected, h]

theorem selected_map (f : α → β) (xs : List α) :
    selected kept (xs.map f) = (selected kept xs).map f := by
  induction xs generalizing kept with
  | nil => rfl
  | cons x xs ih =>
      by_cases hkept : kept 0 = true
      · rw [List.map_cons, selected_cons_of_pos hkept, selected_cons_of_pos hkept, ih, List.map_cons]
      · rw [List.map_cons, selected_cons_of_neg hkept, selected_cons_of_neg hkept, ih]

theorem selected_sublist (xs : List α) : (selected kept xs).Sublist xs := by
  induction xs generalizing kept with
  | nil => exact .slnil
  | cons x xs ih =>
      by_cases hkept : kept 0 = true
      · rw [selected_cons_of_pos hkept]
        exact ih.cons_cons x
      · rw [selected_cons_of_neg hkept]
        exact ih.cons x

theorem Thinned.selected {P : α → Prop} {xs : List α}
    (h : ∀ i x, xs[i]? = some x → kept i = false → P x) :
    Thinned P xs (selected kept xs) := by
  induction xs generalizing kept with
  | nil => exact .nil
  | cons x xs ih =>
      have hrest : ∀ i y, xs[i]? = some y → kept (i + 1) = false → P y := by
        intro i y hy
        exact h (i + 1) y (by simpa using hy)
      by_cases hkept : kept 0 = true
      · rw [selected_cons_of_pos hkept]
        exact .keep x (ih hrest)
      · rw [selected_cons_of_neg hkept]
        exact .drop (h 0 x rfl (by simpa using hkept)) (ih hrest)

end

/-! ## the records of steps -/

theorem Expr.leaves_of_outcome {history : History} {e : Expr} {record : Record}
    {texts : List String} (h : e.outcome history = ⟨.ok record, texts⟩) : Leaves e record := by
  have hexecutes := executes_statement history e [] ({} : Log)
  unfold outcome at h
  unfold Eval.answer at hexecutes
  cases hrun : Eval.statement history e ⟨[], ({} : Log)⟩ with
  | ok record' frame =>
      simp only [hrun] at h
      rw [hrun] at hexecutes
      cases h
      exact leaves_of_executes hexecutes
  | error fault frame => simp [hrun] at h

theorem Runs.leaves {history : History} {steps : List Step} (h : Runs history steps) :
    ∀ step ∈ steps, Leaves step.statement step.record := by
  induction h with
  | nil => simp
  | cons hstep _ ih => exact List.forall_mem_cons.mpr ⟨Expr.leaves_of_outcome hstep, ih⟩

/-- A statement that assigns nothing leaves a record that binds nothing. -/
theorem Leaves.binding?_eq_none {e : Expr} {record : Record} (h : Leaves e record)
    (he : e.assigned? = none) : record.binding? = none := by
  have hname := h.name?_eq
  rw [he, Record.name?, Option.map_eq_none_iff] at hname
  exact hname

/-- The steps that are left out bind no name, if their statements assign none. -/
theorem Runs.thinned_selected {history : History} {steps : List Step} {kept : Nat → Bool}
    (hruns : Runs history steps)
    (hkept : ∀ i e, (steps.map Step.statement)[i]? = some e → kept i = false →
      e.assigned? = none) :
    Thinned (fun step => step.record.binding? = none) steps (selected kept steps) := by
  refine .selected fun i step hstep hdropped => ?_
  have hassigned : step.statement.assigned? = none :=
    hkept i step.statement (by simp [hstep]) hdropped
  exact (hruns.leaves step (List.mem_of_getElem? hstep)).binding?_eq_none hassigned

/-! ## programs -/

/-- **Only assignments matter to others**: let some top-level statements of a program be left
out, none of which is an assignment.  If the program runs to its end on a sink without a
limit, from any history, then so do the statements that are kept; they leave the records
and print the texts that they left and printed before.  If the program is accepted by the
check, they are too. -/
theorem evaluate_selected {p : Program} {kept : Nat → Bool}
    (hkept : ∀ i e, p[i]? = some e → kept i = false → e.assigned? = none) :
    (∀ {σ : Type} [Sink σ] (history : History) (out : σ) (after : Transcript σ),
      Sink.Unlimited out → Transcript.evaluate p ⟨history, out⟩ = .ok () after →
      ∃ steps, Runs history steps ∧ steps.map Step.statement = p ∧
        after = ⟨history ++ recordsOf steps, Sink.takeAll out (textsOf steps)⟩ ∧
        Transcript.evaluate (selected kept p) ⟨history, out⟩ =
          .ok () ⟨history ++ recordsOf (selected kept steps),
            Sink.takeAll out (textsOf (selected kept steps))⟩) ∧
    (Program.check p = .ok () → Program.check (selected kept p) = .ok ()) := by
  constructor
  · intro σ _ history out after hout hrun
    obtain ⟨steps, hruns, rfl, hafter⟩ := (evaluate_eq_ok_iff hout).mp hrun
    have hrest := hruns.thinned (.refl history) (hruns.thinned_selected hkept)
    refine ⟨steps, hruns, rfl, hafter, ?_⟩
    rw [selected_map]
    exact hrest.evaluate_eq hout
  · intro hcheck
    have hall := Expr.checkAll_eq_ok_iff.mp hcheck
    exact Expr.checkAll_eq_ok_iff.mpr fun e he => hall e ((selected_sublist p).subset he)

/-- A name that is printed, tested, and read by a loop. -/
def reread : Program :=
  [.assign 1 "x" (.literal 1 (.int 5)), .print 2 (.var 2 "x"),
    .branch 3 (.binary 3 .less (.var 3 "x") (.literal 3 (.int 9))) [.print 4 (.literal 4 (.int 0))]
      none,
    .loop 6 (some "y") (.binary 6 .range (.literal 6 (.int 1)) (.literal 6 (.int 3)))
      [.print 7 (.binary 7 .add (.var 7 "x") (.var 7 "y"))]]

/-- Without printing and the test at top level, the loop prints the same. -/
theorem evaluate_selected_reread :
    ∃ steps, Runs [] steps ∧ steps.map Step.statement = reread ∧
      recordsOf (selected (fun i => i = 0 ∨ i = 3) steps) =
        [.assign 1 "x" (.int 5), .loop 6 2] ∧
      textsOf (selected (fun i => i = 0 ∨ i = 3) steps) = ["6\n", "7\n"] ∧
      Program.check (selected (fun i => i = 0 ∨ i = 3) reread) = .ok () := by
  have hkept : ∀ i e, reread[i]? = some e → decide (i = 0 ∨ i = 3) = false →
      e.assigned? = none := by
    intro i e he hdropped
    match i with
    | 0 => contradiction
    | 1 | 2 => cases he; rfl
    | 3 => contradiction
    | n + 4 => contradiction
  have hrun : ∃ after, Transcript.evaluate reread ⟨[], ({} : Log)⟩ = .ok () after := ⟨_, by cbv⟩
  have hrest : Transcript.evaluate (selected (fun i => i = 0 ∨ i = 3) reread) ⟨[], ({} : Log)⟩ =
      .ok () ⟨[.assign 1 "x" (.int 5), .loop 6 2], ⟨["6\n", "7\n"]⟩⟩ := by cbv
  obtain ⟨after, hrun⟩ := hrun
  obtain ⟨hruns, hcheck⟩ := evaluate_selected hkept
  obtain ⟨steps, hsteps, hstatements, -, hselected⟩ :=
    hruns [] ({} : Log) after (Log.unlimited {}) hrun
  rw [hrest, Sink.takeAll_log] at hselected
  simp only [EStateM.Result.ok.injEq, Transcript.mk.injEq, Log.mk.injEq, List.nil_append,
    true_and] at hselected
  exact ⟨steps, hsteps, hstatements, hselected.1.symm, hselected.2.symm, hcheck (by cbv)⟩

end LineScript
