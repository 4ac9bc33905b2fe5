import LineScript.Proofs.Eval.Constancy
import Mathlib

/-!
# LineScript.Proofs.Eval.Discipline

What a run may touch.  Bindings are stacked: a statement puts new ones in front of those
that it finds and never changes or drops any of these, however deep its blocks are and
wherever it fails.  So the bindings of a block can be dropped at its end by cutting the
stack back to the height it had.  The history is only added to, by one record for each
top-level statement that has run.

* `Stacks.statement`, `Stacks.statements` — what is stacked stays, whatever happens;
* `Eval.block_eq_cutBack` — the end of a block;
* `exists_records_of_evaluate`, `exists_failing_of_evaluate` — the records of a run;
* `scope_discipline` — all of this in one.
-/

namespace LineScript

/-! ## bindings -/

/-- Whatever comes of the action, the bindings it starts with are there at its end, below
those that it has added. -/
def Stacks {σ α : Type} (x : Eval σ α) : Prop :=
  ∀ frame, frame.locals <:+ (x frame).state.locals

namespace Stacks

variable {σ α β : Type}

theorem pure (a : α) : Stacks (pure a : Eval σ α) := fun frame => List.suffix_refl frame.locals

theorem bind {x : Eval σ α} {f : α → Eval σ β} (hx : Stacks x) (hf : ∀ a, Stacks (f a)) :
    Stacks (x >>= f) := by
  intro frame
  have hfirst := hx frame
  cases hrun : x frame with
  | ok a between =>
      rw [hrun] at hfirst
      rw [EStateM.bind_of_ok hrun]
      exact hfirst.trans (hf a between)
  | error fault after =>
      rw [hrun] at hfirst
      rw [EStateM.bind_of_error hrun]
      exact hfirst

theorem ofExcept (x : Except (Fault EvalCause) α) :
    Stacks (MonadExcept.ofExcept x : Eval σ α) := by
  intro frame
  cases x <;> exact List.suffix_refl frame.locals

theorem operand (history : History) (e : Expr) : Stacks (Eval.operand history e : Eval σ Value) :=
  fun frame => ofExcept (e.eval ⟨history, frame.locals⟩) frame

theorem bindLocal (b : Binding) : Stacks (Eval.bindLocal b : Eval σ Unit) :=
  fun frame => List.suffix_cons b frame.locals

theorem keep (record : Record) : Stacks (Eval.keep record : Eval σ Unit) := by
  unfold Eval.keep
  cases record.binding? with
  | none => exact pure ()
  | some b => exact bindLocal b

theorem bindElement (name : Option String) (item : Number) :
    Stacks (Eval.bindElement name item : Eval σ Unit) := by
  refine bind (bindLocal _) fun _ => ?_
  cases name with
  | none => exact pure ()
  | some name => exact bindLocal _

/-- A block that ends well leaves the bindings around it, and one that fails leaves its own
in front of them. -/
theorem enclosed {x : Eval σ α} (h : Stacks x) : Stacks (Eval.enclosed x) := by
  intro frame
  have hinner := h frame
  unfold Eval.enclosed
  cases hrun : x frame with
  | ok a after => exact List.suffix_refl frame.locals
  | error fault after =>
      rw [hrun] at hinner
      exact hinner

theorem forM {items : List α} {f : α → Eval σ PUnit} (h : ∀ a, Stacks (f a)) :
    Stacks (items.forM f) := by
  induction items with
  | nil => exact pure _
  | cons a items ih => exact bind (h a) fun _ => ih

variable [Sink σ]

theorem writeLine (line : Nat) (text : String) :
    Stacks (Eval.writeLine line text : Eval σ Unit) := by
  rintro ⟨locals, out⟩
  simp only [Eval.writeLine]
  cases Sink.write (text ++ "\n") out <;> exact List.suffix_refl locals

mutual

theorem statement (history : History) : ∀ e, Stacks (Eval.statement history e : Eval σ Record)
  | .assign line name value => by
      unfold Eval.statement
      exact bind (operand history value) fun _ => pure _
  | .print line value => by
      unfold Eval.statement
      exact bind (operand history value) fun _ => bind (writeLine line _) fun _ => pure _
  | .branch line condition body otherwise => by
      unfold Eval.statement
      refine bind (operand history condition) fun value => bind (ofExcept _) fun taken => ?_
      cases taken with
      | true => exact bind (enclosed (statements history body)) fun _ => pure _
      | false =>
          cases otherwise with
          | none => exact bind (pure _) fun _ => pure _
          | some other => exact bind (enclosed (statements history other)) fun _ => pure _
  | .loop line name range body => by
      unfold Eval.statement
      refine bind (operand history range) fun value => bind (ofExcept _) fun items => ?_
      refine bind (forM fun item => enclosed (bind (bindElement name item) fun _ => ?_)) fun _ =>
        pure _
      exact enclosed (statements history body)
  | .literal line value => by
      unfold Eval.statement
      exact bind (operand history _) fun _ => pure _
  | .var line name => by
      unfold Eval.statement
      exact bind (operand history _) fun _ => pure _
  | .not line e => by
      unfold Eval.statement
      exact bind (operand history _) fun _ => pure _
  | .binary line op left right => by
      unfold Eval.statement
      exact bind (operand history _) fun _ => pure _

theorem statements (history : History) :
    ∀ es, Stacks (Eval.statements history es : Eval σ Unit)
  | [] => by
      unfold Eval.statements
      exact pure ()
  | e :: es => by
      unfold Eval.statements
      exact bind (statement history e) fun record => bind (keep record) fun _ =>
        statements history es

end

end Stacks

namespace Eval

variable {σ α : Type}

/-- Run an action and cut the bindings back to as many as there were.  If it fails they
stay. -/
def cutBack (action : Eval σ α) : Eval σ α := fun frame =>
  match action frame with
  | .ok a after =>
    .ok a { after with locals := after.locals.drop (after.locals.length - frame.locals.length) }
  | .error fault after => .error fault after

/-- Cutting back brings back the bindings, if they are still there. -/
theorem cutBack_eq_enclosed {action : Eval σ α} (h : Stacks action) :
    cutBack action = enclosed action := by
  funext frame
  have hframe := h frame
  unfold cutBack enclosed
  cases hrun : action frame with
  | ok a after =>
      rw [hrun] at hframe
      have hcut : frame.locals = after.locals.drop (after.locals.length - frame.locals.length) :=
        List.suffix_iff_eq_drop.mp hframe
      simp only [← hcut]
  | error fault after => rfl

variable [Sink σ]

/-- At the end of a block its bindings are cut off. -/
theorem block_eq_cutBack (history : History) (body : List Expr) :
    (block history body : Eval σ Unit) = cutBack (statements history body) :=
  (cutBack_eq_enclosed (.statements history body)).symm

/-- At the end of a turn the element is cut off, after the bindings of the body. -/
theorem turn_eq_cutBack (history : History) (name : Option String) (body : List Expr)
    (item : Number) :
    (turn history name body item : Eval σ Unit) =
      cutBack (do bindElement name item; cutBack (statements history body)) := by
  have hbody : Stacks (cutBack (statements history body : Eval σ Unit)) := by
    rw [← block_eq_cutBack]
    exact .enclosed (.statements history body)
  rw [cutBack_eq_enclosed (.bind (.bindElement name item) fun _ => hbody), ← block_eq_cutBack]
  rfl

end Eval

/-! ## records -/

section

variable {σ : Type} [Sink σ]

theorem leaves_of_statement {history : History} {e : Expr} {frame after : Frame σ}
    {record : Record} (h : Eval.statement history e frame = .ok record after) :
    Leaves e record := by
  have hexecutes := executes_statement history e frame.locals frame.out
  rw [Eval.answer, h] at hexecutes
  exact leaves_of_executes hexecutes

theorem exists_of_step_ok {history : History} {e : Expr} {out : σ} {after : Transcript σ}
    (h : Transcript.step e ⟨history, out⟩ = .ok () after) :
    ∃ record, Leaves e record ∧ after.history = history ++ [record] := by
  simp only [Transcript.step] at h
  split at h
  · next record frame hrun =>
    cases h
    exact ⟨record, leaves_of_statement hrun, rfl⟩
  · contradiction

theorem exists_of_step_error {history : History} {e : Expr} {out : σ} {fault : Fault EvalCause}
    {after : Transcript σ} (h : Transcript.step e ⟨history, out⟩ = .error fault after) :
    ∃ frame, Eval.statement history e ⟨[], out⟩ = .error fault frame ∧
      after = ⟨history, frame.out⟩ := by
  simp only [Transcript.step] at h
  split at h
  · contradiction
  · next frame hrun =>
    cases h
    exact ⟨frame, hrun, rfl⟩

/-- A run that comes to its end has added one record for each statement. -/
theorem exists_records_of_evaluate {p : Program} {history : History} {out : σ}
    {after : Transcript σ} (h : Transcript.evaluate p ⟨history, out⟩ = .ok () after) :
    ∃ records, after.history = history ++ records ∧ List.Forall₂ Leaves p records := by
  induction p generalizing history out with
  | nil =>
      obtain ⟨-, rfl⟩ := EStateM.pure_eq_ok_iff.mp h
      exact ⟨[], (List.append_nil history).symm, .nil⟩
  | cons e p ih =>
      obtain ⟨_, between, hstep, hrest⟩ := EStateM.bind_eq_ok_iff.mp h
      obtain ⟨record, hleaves, hbetween⟩ := exists_of_step_ok hstep
      obtain ⟨records, hafter, hall⟩ := ih hrest
      refine ⟨record :: records, ?_, .cons hleaves hall⟩
      rw [hafter, hbetween, List.append_assoc, List.singleton_append]

/-- A run that fails has run the statements before the one that fails, and adds nothing for
that one. -/
theorem exists_failing_of_evaluate {p : Program} {history : History} {out : σ}
    {fault : Fault EvalCause} {after : Transcript σ}
    (h : Transcript.evaluate p ⟨history, out⟩ = .error fault after) :
    ∃ before e rest between frame, p = before ++ e :: rest ∧
      Transcript.evaluate before ⟨history, out⟩ = .ok () between ∧
      Eval.statement between.history e ⟨[], between.out⟩ = .error fault frame ∧
      after = ⟨between.history, frame.out⟩ := by
  induction p generalizing history out with
  | nil => contradiction
  | cons e p ih =>
      rcases EStateM.bind_eq_error_iff.mp h with hstep | ⟨_, first, hstep, hrest⟩
      · obtain ⟨frame, hrun, hafter⟩ := exists_of_step_error hstep
        exact ⟨[], e, p, ⟨history, out⟩, frame, rfl, rfl, hrun, hafter⟩
      · obtain ⟨before, e', rest, between, frame, rfl, hbefore, hrun, hafter⟩ := ih hrest
        refine ⟨e :: before, e', rest, between, frame, rfl, ?_, hrun, hafter⟩
        rw [Transcript.evaluate, EStateM.bind_of_ok hstep]
        exact hbefore

/-! ## both -/

/-- **Scopes and histories are kept**: a statement or a block that ends well leaves the
bindings exactly as they were, and one that fails leaves them below what was added since;
every block and every turn of a loop may therefore end by cutting the bindings back.  A
program adds one record for each statement, of its kind and line; if it fails, one for each
statement before the one that fails. -/
theorem scope_discipline (history : History) :
    (∀ (e : Expr) (locals : List Binding) (out : σ),
      (∀ record after, Eval.statement history e ⟨locals, out⟩ = .ok record after →
        after.locals = locals) ∧
      (∀ fault after, Eval.statement history e ⟨locals, out⟩ = .error fault after →
        locals <:+ after.locals)) ∧
    (∀ (body : List Expr) (locals : List Binding) (out : σ),
      (∀ after, Eval.block history body ⟨locals, out⟩ = .ok () after → after.locals = locals) ∧
      (∀ fault after, Eval.block history body ⟨locals, out⟩ = .error fault after →
        locals <:+ after.locals)) ∧
    (∀ body, (Eval.block history body : Eval σ Unit) =
      Eval.cutBack (Eval.statements history body)) ∧
    (∀ name body item, (Eval.turn history name body item : Eval σ Unit) =
      Eval.cutBack (do
        Eval.bindElement name item
        Eval.cutBack (Eval.statements history body))) ∧
    ∀ (p : Program) (out : σ),
      (∀ after, Transcript.evaluate p ⟨history, out⟩ = .ok () after →
        ∃ records, after.history = history ++ records ∧ List.Forall₂ Leaves p records) ∧
      (∀ fault after, Transcript.evaluate p ⟨history, out⟩ = .error fault after →
        ∃ before e rest records between frame, p = before ++ e :: rest ∧
          Transcript.evaluate before ⟨history, out⟩ = .ok () ⟨history ++ records, between⟩ ∧
          List.Forall₂ Leaves before records ∧
          Eval.statement (history ++ records) e ⟨[], between⟩ = .error fault frame ∧
          after = ⟨history ++ records, frame.out⟩) := by
  refine ⟨fun e locals out => ⟨fun _ _ => Eval.locals_of_statement, ?_⟩,
    fun body locals out => ⟨fun _ => Eval.locals_of_enclosed, ?_⟩,
    Eval.block_eq_cutBack history, Eval.turn_eq_cutBack history,
    fun p out => ⟨fun _ => exists_records_of_evaluate, ?_⟩⟩
  · intro fault after h
    have hstacks := Stacks.statement history e ⟨locals, out⟩
    rwa [h] at hstacks
  · intro fault after h
    have hstacks := (Stacks.statements history body).enclosed ⟨locals, out⟩
    rw [Eval.block] at h
    rwa [h] at hstacks
  · intro fault after h
    obtain ⟨before, e, rest, ⟨earlier, between⟩, frame, hp, hbefore, hrun, rfl⟩ :=
      exists_failing_of_evaluate h
    obtain ⟨records, rfl, hleaves⟩ := exists_records_of_evaluate hbefore
    exact ⟨before, e, rest, records, between, frame, hp, hbefore, hleaves, hrun, rfl⟩

end

/-- A loop that binds names in its body and in a branch there, and that fails in the branch at
its second turn. -/
def failingLoop : Expr :=
  .loop 2 (some "x") (.binary 2 .rangeInclusive (.literal 2 (.int 1)) (.literal 2 (.int 2)))
    [.assign 3 "y" (.var 3 "x"),
      .branch 4 (.literal 4 (.bool true))
        [.assign 5 "z" (.var 5 "y"),
          .print 6
            (.binary 6 .div (.var 6 "z") (.binary 6 .sub (.literal 6 (.int 2)) (.var 6 "x")))]
        none]

/-- The bindings of the branch, the body and the turn are left in front of the one that was
there; nothing is left of the first turn, nor of the loop in the history. -/
theorem scope_discipline_failing :
    Eval.statement [] failingLoop ⟨[⟨"a", .int 7⟩], ({} : Log)⟩ = .error ⟨.divisionByZero, 6⟩
      ⟨[⟨"z", .int 2⟩, ⟨"y", .int 2⟩, ⟨"x", .int 2⟩, ⟨loopName, .int 2⟩, ⟨"a", .int 7⟩],
        ⟨["1\n"]⟩⟩ ∧
    [⟨"a", .int 7⟩] <:+
      ([⟨"z", .int 2⟩, ⟨"y", .int 2⟩, ⟨"x", .int 2⟩, ⟨loopName, .int 2⟩, ⟨"a", .int 7⟩] :
        List Binding) ∧
    ∃ before e rest records, [.print 1 (.literal 1 (.int 0)), failingLoop] = before ++ e :: rest ∧
      List.Forall₂ Leaves before records ∧ records = [.print 1 (.int 0)] := by
  have hrun : Eval.statement [] failingLoop ⟨[⟨"a", .int 7⟩], ({} : Log)⟩ =
      .error ⟨.divisionByZero, 6⟩
        ⟨[⟨"z", .int 2⟩, ⟨"y", .int 2⟩, ⟨"x", .int 2⟩, ⟨loopName, .int 2⟩, ⟨"a", .int 7⟩],
          ⟨["1\n"]⟩⟩ := by cbv
  have hprogram : Transcript.evaluate [.print 1 (.literal 1 (.int 0)), failingLoop]
      ⟨[], ({} : Log)⟩ =
        .error ⟨.divisionByZero, 6⟩ ⟨[.print 1 (.int 0)], ⟨["0\n", "1\n"]⟩⟩ := by cbv
  obtain ⟨hstatement, -, -, -, hprograms⟩ := scope_discipline (σ := Log) []
  obtain ⟨before, e, rest, records, _, _, hp, -, hleaves, -, hafter⟩ :=
    (hprograms _ {}).2 _ _ hprogram
  refine ⟨hrun, (hstatement failingLoop _ {}).2 _ _ hrun, before, e, rest, records, hp, hleaves, ?_⟩
  exact (congrArg Transcript.history hafter).symm

end LineScript
