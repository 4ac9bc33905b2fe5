import LineScript.Eval.Statement

/-!
# LineScript.Eval.Transcript

Running programs.  Each top-level statement runs against the records of the
statements before it, with no bindings around it, and its own record is added at
the end.  A run that fails keeps the records and the output it has made.
-/

namespace LineScript

/-- What a run has made so far: the records of its top-level statements, oldest
first, and the sink. -/
structure Transcript (σ : Type) where
  history : History
  out : σ

namespace Transcript

variable {σ : Type} [Sink σ]

/-- Run one top-level statement and add its record. -/
def step (e : Expr) : EStateM (Fault EvalCause) (Transcript σ) Unit := fun ⟨history, out⟩ =>
  match Eval.statement history e ⟨[], out⟩ with
  | .ok record frame => .ok () ⟨history ++ [record], frame.out⟩
  | .error fault frame => .error fault ⟨history, frame.out⟩

/-- Run the statements of a program in order. -/
def evaluate : Program → EStateM (Fault EvalCause) (Transcript σ) Unit
  | [] => pure ()
  | e :: program => do
    step e
    evaluate program

/-- Running two programs one after the other is running both in one. -/
theorem evaluate_append (p q : Program) :
    (evaluate (p ++ q) : EStateM (Fault EvalCause) (Transcript σ) Unit) =
      (do evaluate p; evaluate q) := by
  induction p with
  | nil => rfl
  | cons e p ih =>
      funext t
      simp only [List.cons_append, evaluate, ih, bind, EStateM.bind]
      split <;> rfl

end Transcript

end LineScript
