import LineScript.Proofs.Eval.Simulation

/-!
# LineScript.Proofs.Eval.Steps

Runs, step by step.  A `Step` is a top-level statement with the record and the
texts it left; `Runs` says that steps follow each other from a history.  A run of
a program on any sink without a limit is told by its steps, and a step that
binds no name can be taken out of a run without changing the others.

* `evaluate_eq_ok_iff` — a program runs to its end exactly if it has steps;
* `Runs.thinned` — what is left of a run without some of the steps that bind no
  name is a run.
-/

namespace LineScript

variable {σ : Type} [Sink σ]

/-! ## one statement -/

/-- What a top-level statement gives: its record, or why it failed, and the texts
it printed in either case. -/
structure Outcome where
  result : Except (Fault EvalCause) Record
  texts : List String

/-- What a statement gives when it runs against a history. -/
def Expr.outcome (history : History) (e : Expr) : Outcome :=
  match Eval.statement history e ⟨[], ({} : Log)⟩ with
  | .ok record frame => ⟨.ok record, frame.out.texts⟩
  | .error fault frame => ⟨.error fault, frame.out.texts⟩

/-- A top-level statement does to a sink without a limit what its outcome says. -/
theorem Transcript.step_eq (history : History) (e : Expr) {out : σ} (hout : Sink.Unlimited out) :
    step e ⟨history, out⟩ =
      match e.outcome history with
      | ⟨.ok record, texts⟩ => .ok () ⟨history ++ [record], Sink.takeAll out texts⟩
      | ⟨.error fault, texts⟩ => .error fault ⟨history, Sink.takeAll out texts⟩ := by
  have h : Eval.statement history e ⟨[], out⟩ = _ :=
    Simulates.statement hout.hom (.refl history) e ⟨[], {}⟩
  unfold step Expr.outcome
  simp only [h]
  cases Eval.statement history e ⟨[], ({} : Log)⟩ <;> rfl

theorem Transcript.evaluate_singleton (e : Expr) :
    (evaluate [e] : EStateM (Fault EvalCause) (Transcript σ) Unit) = step e := by
  funext t
  rw [evaluate]
  cases h : step e t with
  | ok u after => rw [EStateM.bind_of_ok h]; rfl
  | error fault after => rw [EStateM.bind_of_error h]

/-- An outcome depends on the values of names only. -/
theorem History.Agree.outcome_eq {h h' : History} (hh : h.Agree h') (e : Expr) :
    e.outcome h = e.outcome h' := by
  have hid : Sink.Hom (id : Log → Log) := fun _ _ => rfl
  have hrun : Eval.statement h' e ⟨[], ({} : Log)⟩ = _ := Simulates.statement hid hh e ⟨[], {}⟩
  unfold Expr.outcome
  rw [hrun]
  cases Eval.statement h e ⟨[], ({} : Log)⟩ <;> rfl

/-! ## runs -/

/-- A top-level statement that has run, with the record and the texts it left. -/
structure Step where
  statement : Expr
  record : Record
  texts : List String

/-- The records that steps left, in order. -/
abbrev recordsOf (steps : List Step) : History := steps.map Step.record

/-- The texts that steps printed, in order. -/
abbrev textsOf (steps : List Step) : List String := steps.flatMap Step.texts

/-- The second list is the first without some of its elements that satisfy `P`. -/
inductive Thinned {α : Type} (P : α → Prop) : List α → List α → Prop where
  | nil : Thinned P [] []
  | keep (x : α) {xs ys : List α} (h : Thinned P xs ys) : Thinned P (x :: xs) (x :: ys)
  | drop {x : α} (hx : P x) {xs ys : List α} (h : Thinned P xs ys) : Thinned P (x :: xs) ys

theorem Thinned.filter {α : Type} {P : α → Prop} {p : α → Bool} {xs : List α}
    (h : ∀ x ∈ xs, p x = false → P x) : Thinned P xs (xs.filter p) := by
  induction xs with
  | nil => exact .nil
  | cons x xs ih =>
      obtain ⟨hfirst, hrest⟩ := List.forall_mem_cons.mp h
      by_cases hkeep : p x = true
      · rw [List.filter_cons_of_pos hkeep]
        exact .keep x (ih hrest)
      · rw [List.filter_cons_of_neg hkeep]
        exact .drop (hfirst (by simpa using hkeep)) (ih hrest)

/-- The steps follow each other from the given history. -/
inductive Runs : History → List Step → Prop where
  | nil (history : History) : Runs history []
  | cons {history : History} {step : Step} {steps : List Step}
      (h : step.statement.outcome history = ⟨.ok step.record, step.texts⟩)
      (hs : Runs (history ++ [step.record]) steps) : Runs history (step :: steps)

namespace Runs

variable {h h' : History} {steps : List Step}

theorem append_iff {xs ys : List Step} :
    Runs h (xs ++ ys) ↔ Runs h xs ∧ Runs (h ++ recordsOf xs) ys := by
  induction xs generalizing h with
  | nil => simp [Runs.nil]
  | cons x xs ih =>
      constructor
      · intro hruns
        cases hruns with
        | cons hx hrest =>
            obtain ⟨hxs, hys⟩ := ih.mp hrest
            exact ⟨.cons hx hxs, by simpa using hys⟩
      · rintro ⟨hruns, hys⟩
        cases hruns with
        | cons hx hxs => exact .cons hx (ih.mpr ⟨hxs, by simpa using hys⟩)

theorem singleton_iff {step : Step} :
    Runs h [step] ↔ step.statement.outcome h = ⟨.ok step.record, step.texts⟩ := by
  constructor
  · intro hruns
    cases hruns with
    | cons hstep _ => exact hstep
  · intro hstep
    exact .cons hstep (.nil _)

/-- What is left of a run without some of the steps that bind no name is a run,
also from another history that agrees. -/
theorem thinned (hruns : Runs h steps) (hh : h.Agree h') {kept : List Step}
    (hkept : Thinned (fun step => step.record.binding? = none) steps kept) : Runs h' kept := by
  induction hkept generalizing h h' with
  | nil => exact .nil h'
  | keep step _ ih =>
      cases hruns with
      | cons hstep hrest => exact .cons (hh.outcome_eq _ ▸ hstep) (ih hrest (hh.append _))
  | drop hstep _ ih =>
      cases hruns with
      | cons _ hrest => exact ih hrest (hh.append_left hstep)

/-- The records of steps and of what is left of them agree. -/
theorem agree_thinned (hh : h.Agree h') {kept : List Step}
    (hkept : Thinned (fun step => step.record.binding? = none) steps kept) :
    History.Agree (h ++ recordsOf steps) (h' ++ recordsOf kept) := by
  induction hkept generalizing h h' with
  | nil => simpa using hh
  | keep step _ ih => simpa using ih (hh.append step.record)
  | drop hstep _ ih => simpa using ih (hh.append_left hstep)

/-- Steps are run, on any sink without a limit. -/
theorem evaluate_eq (hruns : Runs h steps) {out : σ} (hout : Sink.Unlimited out) :
    Transcript.evaluate (steps.map Step.statement) ⟨h, out⟩ =
      .ok () ⟨h ++ recordsOf steps, Sink.takeAll out (textsOf steps)⟩ := by
  induction hruns generalizing out with
  | nil h => simp [Transcript.evaluate, pure, EStateM.pure]
  | @cons h step steps hstep _ ih =>
      have hfirst : Transcript.step step.statement ⟨h, out⟩ =
          .ok () ⟨h ++ [step.record], Sink.takeAll out step.texts⟩ := by
        rw [Transcript.step_eq h _ hout, hstep]
      rw [List.map_cons, Transcript.evaluate, EStateM.bind_of_ok hfirst,
        ih (hout.takeAll step.texts)]
      simp [Sink.takeAll_append]

/-- The records of steps are told by their statements. -/
theorem recordsOf_eq_of_map_eq {xs ys : List Step} (hxs : Runs h xs) (hys : Runs h ys)
    (heq : xs.map Step.statement = ys.map Step.statement) : recordsOf xs = recordsOf ys := by
  have hx := hxs.evaluate_eq (Log.unlimited {})
  have hy := hys.evaluate_eq (Log.unlimited {})
  rw [heq, hy] at hx
  simp only [EStateM.Result.ok.injEq, Transcript.mk.injEq, List.append_cancel_left_eq] at hx
  exact hx.2.1.symm

/-- In a longer run, the statement after the given steps has run. -/
theorem exists_outcome {all : List Step} (hruns : Runs h steps) (hall : Runs h all) {e : Expr}
    {rest : List Expr} (heq : all.map Step.statement = steps.map Step.statement ++ e :: rest) :
    ∃ record texts, e.outcome (h ++ recordsOf steps) = ⟨.ok record, texts⟩ := by
  obtain ⟨done, others, rfl, hdone, hothers⟩ := List.map_eq_append_iff.mp heq
  obtain ⟨step, others, rfl, rfl, -⟩ := List.map_eq_cons_iff.mp hothers
  obtain ⟨hfirst, hrest⟩ := append_iff.mp hall
  rw [hfirst.recordsOf_eq_of_map_eq hruns hdone] at hrest
  cases hrest with
  | cons hstep _ => exact ⟨step.record, step.texts, hstep⟩

end Runs

/-- **A run is its steps**: a program runs to its end exactly if its statements
are the statements of steps, and these tell its records and what it prints. -/
theorem evaluate_eq_ok_iff {p : Program} {h : History} {out : σ} {t : Transcript σ}
    (hout : Sink.Unlimited out) :
    Transcript.evaluate p ⟨h, out⟩ = .ok () t ↔
      ∃ steps, Runs h steps ∧ steps.map Step.statement = p ∧
        t = ⟨h ++ recordsOf steps, Sink.takeAll out (textsOf steps)⟩ := by
  constructor
  · intro hrun
    induction p generalizing h out with
    | nil =>
        obtain ⟨-, rfl⟩ := EStateM.pure_eq_ok_iff.mp hrun
        exact ⟨[], .nil h, rfl, by simp⟩
    | cons e p ih =>
        rw [Transcript.evaluate] at hrun
        obtain ⟨_, t', hstep, hrest⟩ := EStateM.bind_eq_ok_iff.mp hrun
        rw [Transcript.step_eq h e hout] at hstep
        split at hstep
        · next record texts houtcome =>
          cases hstep
          obtain ⟨steps, hruns, rfl, rfl⟩ := ih (hout.takeAll texts) hrest
          exact ⟨⟨e, record, texts⟩ :: steps, .cons houtcome hruns, rfl,
            by simp [Sink.takeAll_append]⟩
        · contradiction
  · rintro ⟨steps, hruns, rfl, rfl⟩
    exact hruns.evaluate_eq hout

/-! ## what statements leave -/

/-- Whether a record is that of printing. -/
def Record.isPrint : Record → Bool
  | print .. => true
  | _ => false

theorem Record.binding?_of_isPrint {record : Record} (h : record.isPrint = true) :
    record.binding? = none := by
  cases record <;> simp_all [isPrint, binding?]

/-- Whether a tree is a branch or a loop. -/
def Expr.isBlock : Expr → Bool
  | branch .. | loop .. => true
  | _ => false

namespace Expr

variable {h : History} {e : Expr}

/-- The record of printing is left by printing only. -/
theorem isPrint_of_statement {σ : Type} [Sink σ] {frame after : Frame σ} {record : Record}
    (hrun : Eval.statement h e frame = .ok record after) : record.isPrint = e.isPrint := by
  unfold Eval.statement at hrun
  split at hrun
  · obtain ⟨_, rfl⟩ := EStateM.exists_of_bind_pure hrun
    rfl
  · obtain ⟨_, _, -, hrun⟩ := EStateM.bind_eq_ok_iff.mp hrun
    obtain ⟨_, rfl⟩ := EStateM.exists_of_bind_pure hrun
    rfl
  · next line condition body otherwise =>
    obtain ⟨_, _, -, hrun⟩ := EStateM.bind_eq_ok_iff.mp hrun
    obtain ⟨taken, _, -, hrun⟩ := EStateM.bind_eq_ok_iff.mp hrun
    have hrecord : record = .branch line taken := by
      cases taken with
      | true =>
          obtain ⟨_, hrecord⟩ := EStateM.exists_of_bind_pure hrun
          exact hrecord
      | false =>
          cases otherwise with
          | none => exact (EStateM.pure_eq_ok_iff.mp hrun).1.symm
          | some body =>
              obtain ⟨_, hrecord⟩ := EStateM.exists_of_bind_pure hrun
              exact hrecord
    rw [hrecord]
    rfl
  · obtain ⟨_, _, -, hrun⟩ := EStateM.bind_eq_ok_iff.mp hrun
    obtain ⟨_, _, -, hrun⟩ := EStateM.bind_eq_ok_iff.mp hrun
    obtain ⟨_, rfl⟩ := EStateM.exists_of_bind_pure hrun
    rfl
  all_goals
    obtain ⟨_, rfl⟩ := EStateM.exists_of_bind_pure hrun
    rfl

theorem isPrint_of_outcome {record : Record} {texts : List String}
    (houtcome : e.outcome h = ⟨.ok record, texts⟩) : record.isPrint = e.isPrint := by
  unfold outcome at houtcome
  split at houtcome
  · next hrun =>
    cases houtcome
    exact isPrint_of_statement hrun
  · cases houtcome

/-- An operand or an assignment gives the value of an operand, and prints
nothing. -/
theorem outcome_of_operand {operand : Expr} {f : Value → Record}
    (he : (Eval.statement h e : Eval Log Record) = (do return f (← Eval.operand h operand))) :
    e.outcome h = ⟨(operand.eval ⟨h, []⟩).map f, []⟩ := by
  have hoperand : Eval.operand h operand ⟨[], ({} : Log)⟩ =
      (MonadExcept.ofExcept (operand.eval ⟨h, []⟩) : Eval Log Value) ⟨[], {}⟩ := rfl
  unfold outcome
  rw [he]
  cases hvalue : operand.eval ⟨h, []⟩ with
  | ok value =>
      rw [hvalue] at hoperand
      rw [EStateM.bind_of_ok hoperand]
      rfl
  | error fault =>
      rw [hvalue] at hoperand
      rw [EStateM.bind_of_error hoperand]
      rfl

/-- Only printing, branches and loops print. -/
theorem texts_outcome_eq_nil (hprint : e.isPrint = false) (hblock : e.isBlock = false) :
    (e.outcome h).texts = [] := by
  cases e with
  | print => simp [isPrint] at hprint
  | branch => simp [isBlock] at hblock
  | loop => simp [isBlock] at hblock
  | assign line name value =>
      rw [outcome_of_operand (by unfold Eval.statement; rfl)]
  | literal => rw [outcome_of_operand (by unfold Eval.statement; rfl)]
  | var => rw [outcome_of_operand (by unfold Eval.statement; rfl)]
  | not => rw [outcome_of_operand (by unfold Eval.statement; rfl)]
  | binary => rw [outcome_of_operand (by unfold Eval.statement; rfl)]

end Expr

/-! ## runs without printing -/

/-- The steps without top-level printing. -/
def replayed (steps : List Step) : List Step := steps.filter fun step => !step.statement.isPrint

theorem map_statement_replayed (steps : List Step) :
    (replayed steps).map Step.statement =
      (steps.map Step.statement).filter fun e => !e.isPrint := by
  rw [replayed, List.filter_map]
  rfl

namespace Runs

variable {h : History} {steps : List Step}

theorem isPrint_record (hruns : Runs h steps) :
    ∀ step ∈ steps, step.record.isPrint = step.statement.isPrint := by
  induction hruns with
  | nil => simp
  | cons hstep _ ih => exact List.forall_mem_cons.mpr ⟨Expr.isPrint_of_outcome hstep, ih⟩

/-- The steps that are left out bind no name. -/
theorem binding?_of_print (hruns : Runs h steps) :
    ∀ step ∈ steps, (!step.statement.isPrint) = false → step.record.binding? = none := by
  intro step hstep hprint
  have hstatement : step.statement.isPrint = true := by simpa using hprint
  have hrecord := hruns.isPrint_record step hstep
  rw [hstatement] at hrecord
  exact Record.binding?_of_isPrint hrecord

theorem replay (hruns : Runs [] steps) : Runs [] (replayed steps) :=
  hruns.thinned (.refl []) (.filter hruns.binding?_of_print)

/-- A statement gives the same after all steps and after those without
printing. -/
theorem outcome_replayed (hruns : Runs [] steps) (e : Expr) :
    e.outcome (recordsOf (replayed steps)) = e.outcome (recordsOf steps) := by
  have hagree := agree_thinned (.refl []) (.filter hruns.binding?_of_print)
  exact (hagree.outcome_eq e).symm

end Runs

end LineScript
