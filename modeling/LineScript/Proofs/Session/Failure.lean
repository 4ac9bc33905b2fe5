import LineScript.Proofs.Eval.Constancy
import LineScript.Proofs.Session.Batch
import LineScript.Proofs.Session.Forgetting
import LineScript.Proofs.Session.Replay

/-!
# LineScript.Proofs.Session.Failure

The records of a session after a failure.  A line that cannot be read or is refused by
the check leaves them alone.  A run that stops does not: the accepted statements have
been run again by then, so the records are those of this run.  The record of printing
that the last accepted statement may have left is lost, and if a sink refused what a
branch or a loop prints again, so are later ones.

* `Sound.history_of_failed` — the records of a run that stops;
* `Recorded.next` — one line keeps track of the records of the last accepted statement;
* `Session.history_after_failure` — what a failure leaves, in every session.
-/

namespace LineScript

/-! ## the last accepted statement -/

/-- The records right after the last accepted statement, once the line has been entered.
Before it they were the given ones. -/
def Entry.accepted (x : Entry) (s : Session) (records : History) : History :=
  match x.result s with
  | .ok _ (s', _) => if s.completes x.text then s'.history else records
  | .error _ _ => records

/-- The records right after the last accepted statement, once lines have been entered one
after another.  Before them they were the given ones. -/
def Session.acceptedAfter (s : Session) (records : History) : List Entry → History
  | [] => records
  | x :: entries => (x.next s).acceptedAfter (x.accepted s records) entries

/-- Without printing, the records that a session shows are those of the replay. -/
theorem Runs.filter_shownRecords {steps : List Step} (hruns : Runs [] steps) :
    (shownRecords steps).filter (fun record => !record.isPrint) = recordsOf (replayed steps) := by
  rw [hruns.recordsOf_replayed]
  rcases List.eq_nil_or_concat' steps with rfl | ⟨steps, step, rfl⟩
  · rfl
  · simp [shownRecords, List.filter_filter]

/-- The replay loses at most the last record, if it is that of printing. -/
theorem Runs.shownRecords_eq_or {steps : List Step} (hruns : Runs [] steps) :
    shownRecords steps = recordsOf (replayed steps) ∨
      ∃ record, record.isPrint = true ∧
        shownRecords steps = recordsOf (replayed steps) ++ [record] := by
  rcases List.eq_nil_or_concat' steps with rfl | ⟨steps, step, rfl⟩
  · exact .inl rfl
  · have hshown : shownRecords (steps ++ [step]) = recordsOf (replayed steps) ++ [step.record] :=
      (Runs.append_iff.mp hruns).1.shownRecords_append_singleton
    have hrecord := hruns.isPrint_record step (by simp)
    cases hprint : step.statement.isPrint with
    | true =>
        rw [hprint] at hrecord
        refine .inr ⟨step.record, hrecord, ?_⟩
        rw [hshown]
        simp [replayed, hprint]
    | false =>
        refine .inl ?_
        rw [hshown]
        simp [replayed, hprint]

namespace Session

variable {σ : Type} [Sink σ] {s : Session} {steps : List Step} {records : History}
  {tokens : List Token} {p : Program} {out : σ}

/-! ## runs of a completed statement -/

/-- A run that stops leaves records of the accepted statements without printing, and all
of them unless a sink refused a text. -/
theorem Sound.history_of_failed (hs : s.Sound steps)
    (hclosed : s.depth + nestingDelta tokens ≤ 0) (hprogram : (s.extend tokens).program = .ok p)
    {fault : Fault EvalCause} {t : Transcript σ}
    (hrun : Transcript.evaluate p ⟨[], out⟩ = .error fault t) :
    t.history <+: recordsOf (replayed steps) ∧
      ((∀ reason, fault.cause ≠ .output reason) → t.history = recordsOf (replayed steps)) := by
  obtain ⟨e, names, -, -, hp⟩ := hs.exists_of_program_ok hclosed hprogram
  -- The run is compared with one whose sink takes everything.
  have hfollowed := followedRun_log p [] out
  rw [hrun] at hfollowed
  generalize hlog : Transcript.evaluate p ⟨[], ({} : Log)⟩ = first at hfollowed
  cases hfollowed with
  | error _ _ =>
      rw [hp] at hlog
      obtain ⟨texts, -, ht⟩ := hs.outcome_of_failed (Log.unlimited {}) hlog
      have hhistory := congrArg Transcript.history ht
      exact ⟨⟨[], by rw [List.append_nil, hhistory]⟩, fun _ => hhistory⟩
  | @refused _ before after e' _ _ _ _ _ _ hsplit hbefore _ hrefused _ =>
      -- The statement at which the run stopped is the new one or comes before it.
      have hshorter : before <+: (steps.map Step.statement).filter fun e => !e.isPrint := by
        rw [hp] at hsplit
        rcases List.prefix_concat_iff.mp ⟨e' :: after, hsplit.symm⟩ with hwhole | hshorter
        · simp [hwhole] at hsplit
        · exact hshorter
      obtain ⟨more, hmore⟩ := exists_append_of_evaluate hshorter hbefore hs.evaluate_replayed
      cases hrefused with
      | @print _ _ _ _ _ _ _ _ reason =>
          exact ⟨⟨more, hmore.symm⟩, fun hcause => absurd rfl (hcause reason)⟩

/-! ## entering lines -/

/-- The accepted statements of a session are those of the steps, `records` are the ones
right after the last of them, and the session shows these or some of the replay. -/
structure Recorded (s : Session) (records : History) (steps : List Step) : Prop where
  sound : s.Sound steps
  records_eq : records = shownRecords steps
  history : s.history = records ∨ s.history <+: recordsOf (replayed steps)

theorem recorded_new (options : Options) : Recorded { options := options } [] [] :=
  ⟨sound_new options, rfl, .inl rfl⟩

namespace Recorded

/-- What a line that fails leaves. -/
theorem history_of_error (h : Recorded s records steps) {text : String} {error : Error}
    {s' : Session} {after : σ} : Submitted s text out (.error error (s', after)) →
      match error with
      | .eval fault => s'.history <+: recordsOf (replayed steps) ∧
          ((∀ reason, fault.cause ≠ .output reason) → s'.history = recordsOf (replayed steps))
      | _ => s'.history = s.history := by
  intro hsubmitted
  cases hsubmitted with
  | unread => rfl
  | refused _ _ hclosed hprogram =>
      rcases h.sound.exists_of_program_error hclosed hprogram with
        ⟨fault, names, -, rfl⟩ | ⟨e, names, fault, -, -, -, rfl⟩ <;> rfl
  | failed _ _ hclosed hprogram hrun => exact h.sound.history_of_failed hclosed hprogram hrun

/-- **One line keeps track of the last accepted statement**, whatever comes of it. -/
theorem next (h : Recorded s records steps) (x : Entry) :
    ∃ steps', Recorded (x.next s) (x.accepted s records) steps' := by
  have hsubmitted : Submitted s x.text x.out (x.result s) := submitted s x.text x.out
  have hwellFormed := h.sound.wellFormed.submit hsubmitted
  unfold Entry.next Entry.accepted
  generalize x.result s = result at hsubmitted hwellFormed ⊢
  cases hsubmitted with
  | unread | refused => exact ⟨steps, h.sound.keep hwellFormed rfl rfl, h.records_eq, h.history⟩
  | blank hblank =>
      have hcompletes : s.completes x.text = false := by simp [completes, hblank]
      simp only [hcompletes]
      exact ⟨steps, h.sound.keep hwellFormed rfl rfl, h.records_eq, h.history⟩
  | continued htokens _ hopen =>
      have hcompletes : s.completes x.text = false := by
        simp only [completes, htokens, Bool.and_eq_false_iff]
        exact .inr (decide_eq_false (by omega))
      simp only [hcompletes]
      exact ⟨steps, h.sound.keep hwellFormed rfl rfl, h.records_eq, h.history⟩
  | failed _ _ hclosed hprogram hrun =>
      have hhistory := (h.sound.history_of_failed hclosed hprogram hrun).1
      exact ⟨steps, h.sound.keep hwellFormed rfl rfl, h.records_eq, .inr hhistory⟩
  | accepted htokens hne hclosed hprogram hrun =>
      have hcompletes := completes_iff.mpr ⟨_, htokens, hne, hclosed⟩
      obtain ⟨step, hhistory, hsound⟩ := h.sound.exists_step hclosed hprogram hrun
      rw [← h.sound.runs.shownRecords_append_singleton] at hhistory
      simp only [hcompletes]
      exact ⟨steps ++ [step], hsound, hhistory, .inl rfl⟩

/-- Lines keep track of the last accepted statement. -/
theorem after (h : Recorded s records steps) (entries : List Entry) :
    ∃ steps', Recorded (s.after entries) (s.acceptedAfter records entries) steps' := by
  induction entries generalizing s records steps with
  | nil => exact ⟨steps, h⟩
  | cons x entries ih =>
      obtain ⟨steps', hnext⟩ := h.next x
      exact ih hnext

end Recorded

/-- **What a failure leaves of the records.**  In every session, whatever the sinks refused,
let `accepted` be the records right after the last accepted statement, and `kept` those
without printing; there is one record of printing at most, and it is the last.  The session
shows the accepted records or, after a failed run, a beginning of the kept ones.  A line that
cannot be cut into tokens, read or accepted by the check leaves what is shown.  A line whose
run stops leaves a beginning of the kept records, and all of them unless a sink refused
something: so the record of a last accepted printing is lost. -/
theorem history_after_failure (options : Options) (entries : List Entry) :
    let s := Session.after { options := options } entries
    let accepted := acceptedAfter { options := options } [] entries
    let kept := accepted.filter fun record => !record.isPrint
    (accepted = kept ∨ ∃ record, record.isPrint = true ∧ accepted = kept ++ [record]) ∧
    (s.history = accepted ∨ s.history <+: kept) ∧
    ∀ (x : Entry) (error : Error) (out : x.σ), x.answer s = .error error out →
      match error with
      | .eval fault => (x.next s).history <+: kept ∧
          ((∀ reason, fault.cause ≠ .output reason) → (x.next s).history = kept)
      | _ => (x.next s).history = s.history := by
  intro s accepted kept
  obtain ⟨steps, h⟩ := (recorded_new options).after entries
  have hkept : kept = recordsOf (replayed steps) := by
    rw [← h.sound.runs.filter_shownRecords, ← h.records_eq]
  rw [hkept]
  refine ⟨?_, h.history, fun x error out hanswer => ?_⟩
  · have hshown := h.sound.runs.shownRecords_eq_or
    rwa [← h.records_eq] at hshown
  · exact h.history_of_error (Entry.submitted_of_answer_error hanswer)

/-- After an assignment and its printing, a division by zero leaves the assignment only. -/
theorem history_after_failure_division :
    let s := Session.after {} assigning
    let x := typed "print x / 0"
    acceptedAfter {} [] assigning = [.assign 1 "x" (.int 1), .print 2 (.int 1)] ∧
    x.answer s = .error (.eval ⟨.divisionByZero, 3⟩) (⟨[]⟩ : Log) ∧
    (x.next s).history = [.assign 1 "x" (.int 1)] := by
  have hs : Session.after {} assigning = assignedSession := by cbv
  have haccepted : acceptedAfter {} [] assigning =
      [.assign 1 "x" (.int 1), .print 2 (.int 1)] := by cbv
  have hanswer : (typed "print x / 0").answer assignedSession =
      .error (.eval ⟨.divisionByZero, 3⟩) (⟨[]⟩ : Log) := by cbv
  obtain ⟨-, -, hfailure⟩ := history_after_failure {} assigning
  rw [hs, haccepted] at hfailure
  rw [hs]
  exact ⟨haccepted, hanswer, (hfailure _ _ _ hanswer).2 (by simp)⟩

/-- A failed run does not leave the records alone: the record of printing is lost. -/
theorem failed_run_loses_printing :
    let s := Session.after {} [typed "print 1"]
    let x := typed "print 1 / 0"
    x.answer s = .error (.eval ⟨.divisionByZero, 2⟩) (⟨[]⟩ : Log) ∧
    s.history = [.print 1 (.int 1)] ∧ (x.next s).history = [] := by
  refine ⟨?_, ?_, ?_⟩ <;> cbv

end Session

end LineScript
