import LineScript.Proofs.Eval.Refusal
import LineScript.Proofs.Eval.Steps
import LineScript.Proofs.Session.Representation

/-!
# LineScript.Proofs.Session.Invariant

What a session keeps true while lines are entered, in any order and with any
failures between them: the accepted statements can be read, checked and run as
one program.  So a completed statement that is refused is refused for itself, and
the program that is run for it ends with it alone.

* `Sound.exists_of_program_error`, `Sound.exists_of_program_ok` — why a completed
  statement is refused, and what is run for it otherwise;
* `Sound.outcome_of_accepted`, `Sound.outcome_of_failed` — what the run leaves on a
  sink without a limit;
* `Sound.next` — one line keeps a session sound;
* `Reachable.exists_sound` — every session is.
-/

namespace LineScript

namespace Session

/-! ## the invariant -/

/-- A session is well formed, and its accepted statements are those of the given steps,
which follow each other from an empty history. -/
structure Sound (s : Session) (steps : List Step) : Prop where
  wellFormed : s.WellFormed
  reads : parse s.committed = .ok (steps.map Step.statement)
  valid : s.options.validate (steps.map Step.statement) = .ok ()
  runs : Runs [] steps

theorem sound_new (options : Options) : Sound { options := options } [] where
  wellFormed := wellFormed_new options
  reads := parse_nil
  valid := by rw [Options.validate_eq_ok_iff]; simp
  runs := .nil []

/-! ## the program of a completed statement -/

variable {s : Session} {p : Program} {names : List String}

theorem program_of_misread {fault : Fault ParseCause} (hreads : parse s.committed = .ok p)
    (h : Parse.program s.pending p.assigned.reverse = .error fault names) :
    s.program = .error (.parse fault) := by
  have hparse : parse (s.committed ++ s.pending) = .error fault := by
    rw [parse_append hreads, h]
  unfold program
  rw [hparse]
  rfl

/-- The accepted statements lose their printing, and the new one does not. -/
theorem filter_append_singleton {e : Expr} {first : Nat} (hold : ∀ e ∈ p, e.line < first)
    (he : e.line = first) :
    (p ++ [e]).filter (fun e => !(e.isPrint && e.line < first)) =
      p.filter (fun e => !e.isPrint) ++ [e] := by
  have hp : p.filter (fun e => !(e.isPrint && e.line < first)) =
      p.filter fun e => !e.isPrint := by
    apply List.filter_congr
    intro e' he'
    simp [hold e' he']
  rw [List.filter_append, hp]
  simp [he]

theorem program_of_read {e : Expr} (hreads : parse s.committed = .ok p)
    (hvalid : s.options.validate p = .ok ()) (hold : ∀ e ∈ p, e.line < s.firstPending)
    (h : Parse.program s.pending p.assigned.reverse = .ok [e] names)
    (he : e.line = s.firstPending) :
    s.program = (s.options.validate [e]).map fun _ => p.filter (fun e => !e.isPrint) ++ [e] := by
  have hparse : parse (s.committed ++ s.pending) = .ok (p ++ [e]) := by
    rw [parse_append hreads, h]
  have hcheck := Options.validate_append (Options.validate_filter hvalid fun e => !e.isPrint) [e]
  unfold program
  rw [hparse]
  show (do
    s.options.validate ((p ++ [e]).filter fun e : Expr => !(e.isPrint && e.line < s.firstPending))
    return (p ++ [e]).filter fun e : Expr => !(e.isPrint && e.line < s.firstPending)) = _
  rw [filter_append_singleton hold he, hcheck]
  cases s.options.validate [e] <;> rfl

/-! ## entering a line -/

variable {σ : Type} [Sink σ]

namespace Sound

variable {steps : List Step} {tokens : List Token} {text : String} {out : σ}

theorem nodup_assigned (hs : s.Sound steps) :
    (Program.assigned (steps.map Step.statement)).reverse.Nodup := by
  have hread := parse_eq_ok_iff.mp hs.reads
  exact ((program_eq_ok_iff List.nodup_nil).mp hread).2.2

/-- The accepted statements stand before the one being entered. -/
theorem line_lt (hs : s.Sound steps) :
    ∀ e ∈ steps.map Step.statement, e.line < s.firstPending := by
  intro e he
  have hread := parse_eq_ok_iff.mp hs.reads
  obtain ⟨hderives, -⟩ := (program_eq_ok_iff List.nodup_nil).mp hread
  obtain ⟨l, hl, hnumber⟩ := hderives.line_mem e he
  rw [← hnumber]
  exact hs.wellFormed.committed_lt l hl

/-- The program of a completed statement runs the accepted ones again, without
printing, and then the new one. -/
theorem evaluate_append (hs : s.Sound steps) (e : Expr) (hout : Sink.Unlimited out) :
    Transcript.evaluate ((steps.map Step.statement).filter (fun e => !e.isPrint) ++ [e])
        ⟨[], out⟩ =
      match e.outcome (recordsOf (replayed steps)) with
      | ⟨.ok record, texts⟩ => .ok () ⟨recordsOf (replayed steps) ++ [record],
          Sink.takeAll out (textsOf (replayed steps) ++ texts)⟩
      | ⟨.error fault, texts⟩ => .error fault ⟨recordsOf (replayed steps),
          Sink.takeAll out (textsOf (replayed steps) ++ texts)⟩ := by
  have hreplay := hs.runs.replay.evaluate_eq hout
  rw [map_statement_replayed, List.nil_append] at hreplay
  rw [Transcript.evaluate_append, EStateM.bind_of_ok hreplay, Transcript.evaluate_singleton,
    Transcript.step_eq _ _ (hout.takeAll _)]
  obtain ⟨result, texts⟩ := e.outcome (recordsOf (replayed steps))
  cases result <;> simp only [Sink.takeAll_append]

/-- The lines of a completed statement cannot be read, or they are read as one tree.  The
program to run is then the accepted statements without their printing and the new one, if
the check has nothing against it. -/
theorem program_cases (hs : s.Sound steps)
    (hclosed : s.depth + nestingDelta tokens ≤ 0) :
    (∃ fault names, Parse.program (s.extend tokens).pending
        (Program.assigned (steps.map Step.statement)).reverse = .error fault names ∧
      (s.extend tokens).program = .error (.parse fault)) ∨
    ∃ e names, Parse.program (s.extend tokens).pending
        (Program.assigned (steps.map Step.statement)).reverse = .ok [e] names ∧
      (s.extend tokens).program = (s.options.validate [e]).map fun _ =>
        (steps.map Step.statement).filter (fun e => !e.isPrint) ++ [e] := by
  have hreads : parse (s.extend tokens).committed = .ok (steps.map Step.statement) := hs.reads
  have hold : ∀ e ∈ steps.map Step.statement, e.line < (s.extend tokens).firstPending := by
    rw [firstPending_extend]
    exact hs.line_lt
  cases hread : Parse.program (s.extend tokens).pending
      (Program.assigned (steps.map Step.statement)).reverse with
  | error fault names => exact .inl ⟨fault, names, rfl, program_of_misread hreads hread⟩
  | ok q names =>
      obtain ⟨e, rfl, hhead⟩ := hs.wellFormed.pending.program_enter hclosed hs.nodup_assigned hread
      have hfirst : e.line = (s.extend tokens).firstPending := by
        have hpending : (s.extend tokens).pending.head?.map
            SourceLine.number = some e.line := hhead
        rw [firstPending, hpending]
        rfl
      -- The number of the new statement keeps its printing; the others stand before it.
      exact .inr ⟨e, names, rfl, program_of_read hreads hs.valid hold hread hfirst⟩

/-- A completed statement is refused for itself: it is not read after the names assigned
so far, or the check does not accept it. -/
theorem exists_of_program_error (hs : s.Sound steps)
    (hclosed : s.depth + nestingDelta tokens ≤ 0) {error : Error}
    (h : (s.extend tokens).program = .error error) :
    (∃ fault names, Parse.program (s.extend tokens).pending
        (Program.assigned (steps.map Step.statement)).reverse = .error fault names ∧
      error = .parse fault) ∨
    ∃ e names fault, Parse.program (s.extend tokens).pending
        (Program.assigned (steps.map Step.statement)).reverse = .ok [e] names ∧
      s.options.check = true ∧ Program.check [e] = .error fault ∧ error = .check fault := by
  rcases hs.program_cases hclosed with ⟨fault, names, hread, hprogram⟩ | ⟨e, names, hread, hprogram⟩
  · rw [hprogram] at h
    exact .inl ⟨fault, names, hread, (Except.error.inj h).symm⟩
  · rw [hprogram] at h
    cases hvalid : s.options.validate [e] with
    | ok u =>
        rw [hvalid] at h
        contradiction
    | error error' =>
        rw [hvalid] at h
        obtain ⟨hcheck, fault, hfault, rfl⟩ := Options.exists_of_validate_eq_error hvalid
        exact .inr ⟨e, names, fault, hread, hcheck, hfault, (Except.error.inj h).symm⟩

/-- What is run for a completed statement ends with it, and it alone has been checked. -/
theorem exists_of_program_ok (hs : s.Sound steps)
    (hclosed : s.depth + nestingDelta tokens ≤ 0) (h : (s.extend tokens).program = .ok p) :
    ∃ e names, Parse.program (s.extend tokens).pending
        (Program.assigned (steps.map Step.statement)).reverse = .ok [e] names ∧
      s.options.validate [e] = .ok () ∧
      p = (steps.map Step.statement).filter (fun e => !e.isPrint) ++ [e] := by
  rcases hs.program_cases hclosed with ⟨fault, names, -, hprogram⟩ | ⟨e, names, hread, hprogram⟩
  · rw [hprogram] at h
    contradiction
  · rw [hprogram] at h
    cases hvalid : s.options.validate [e] with
    | error error =>
        rw [hvalid] at h
        contradiction
    | ok u =>
        rw [hvalid] at h
        exact ⟨e, names, hread, hvalid, (Except.ok.inj h).symm⟩

/-! ## the run of a completed statement -/

/-- A run that comes to its end adds the record of the new statement to those of the
replay. -/
theorem outcome_of_accepted (hs : s.Sound steps) {e : Expr} (hout : Sink.Unlimited out)
    {t : Transcript σ}
    (hrun : Transcript.evaluate ((steps.map Step.statement).filter (fun e => !e.isPrint) ++ [e])
      ⟨[], out⟩ = .ok () t) :
    ∃ record texts, e.outcome (recordsOf (replayed steps)) = ⟨.ok record, texts⟩ ∧
      t = ⟨recordsOf (replayed steps) ++ [record],
        Sink.takeAll out (textsOf (replayed steps) ++ texts)⟩ := by
  rw [hs.evaluate_append e hout] at hrun
  split at hrun
  · next record texts houtcome =>
    cases hrun
    exact ⟨record, texts, houtcome, rfl⟩
  · contradiction

/-- A run that stops has run the accepted statements again, and stops at the new one. -/
theorem outcome_of_failed (hs : s.Sound steps) {e : Expr} (hout : Sink.Unlimited out)
    {fault : Fault EvalCause} {t : Transcript σ}
    (hrun : Transcript.evaluate ((steps.map Step.statement).filter (fun e => !e.isPrint) ++ [e])
      ⟨[], out⟩ = .error fault t) :
    ∃ texts, e.outcome (recordsOf (replayed steps)) = ⟨.error fault, texts⟩ ∧
      t = ⟨recordsOf (replayed steps),
        Sink.takeAll out (textsOf (replayed steps) ++ texts)⟩ := by
  rw [hs.evaluate_append e hout] at hrun
  split at hrun
  · contradiction
  · next fault' texts houtcome =>
    cases hrun
    exact ⟨texts, houtcome, rfl⟩

/-! ## what entering a line keeps -/

/-- What leaves the accepted statements alone keeps a session sound. -/
theorem keep (hs : s.Sound steps) {s' : Session} (hwellFormed : s'.WellFormed)
    (hcommitted : s'.committed = s.committed) (hoptions : s'.options = s.options) :
    s'.Sound steps where
  wellFormed := hwellFormed
  reads := hcommitted ▸ hs.reads
  valid := hoptions ▸ hs.valid
  runs := hs.runs

/-- A statement that runs is accepted: its step comes after the others. -/
theorem commit (hs : s.Sound steps) (step : Step) {history : History} {names : List String}
    (hread : Parse.program (s.extend tokens).pending
      (Program.assigned (steps.map Step.statement)).reverse = .ok [step.statement] names)
    (hvalid : s.options.validate [step.statement] = .ok ())
    (hrun : step.statement.outcome (recordsOf (replayed steps)) = ⟨.ok step.record, step.texts⟩) :
    ({ s.extend tokens with history := history }.commit).Sound (steps ++ [step]) := by
  have hreads : parse (s.committed ++ (s.extend tokens).pending) =
      .ok ((steps ++ [step]).map Step.statement) := by
    rw [parse_append hs.reads, hread, List.map_append]
    rfl
  have hchecked : s.options.validate ((steps ++ [step]).map Step.statement) = .ok () := by
    rw [List.map_append, Options.validate_append hs.valid]
    exact hvalid
  have hruns : Runs [] (steps ++ [step]) := by
    rw [hs.runs.outcome_replayed] at hrun
    exact Runs.append_iff.mpr ⟨hs.runs, Runs.singleton_iff.mpr hrun⟩
  exact ⟨hs.wellFormed.commit ⟨_, hreads⟩, hreads, hchecked, hruns⟩

/-- On any sink, a run that comes to its end makes the new statement a step. -/
theorem exists_step (hs : s.Sound steps) (hclosed : s.depth + nestingDelta tokens ≤ 0)
    (hprogram : (s.extend tokens).program = .ok p) {t : Transcript σ}
    (hrun : Transcript.evaluate p ⟨[], out⟩ = .ok () t) :
    ∃ step, t.history = recordsOf (replayed steps) ++ [step.record] ∧
      ({ s.extend tokens with history := t.history }.commit).Sound (steps ++ [step]) := by
  obtain ⟨e, names, hread, hvalid, rfl⟩ := hs.exists_of_program_ok hclosed hprogram
  -- A sink that takes everything would have been left with the same records.
  obtain ⟨log, hlog⟩ := evaluate_log_of_ok hrun
  obtain ⟨record, texts, houtcome, ht⟩ := hs.outcome_of_accepted (Log.unlimited {}) hlog
  refine ⟨⟨e, record, texts⟩, congrArg Transcript.history ht, ?_⟩
  exact hs.commit ⟨e, record, texts⟩ hread hvalid houtcome

/-- **One line keeps a session sound**, whatever comes of it. -/
theorem next (hs : s.Sound steps) {result : EStateM.Result Error (Session × σ) Prompt}
    (h : Submitted s text out result) : ∃ steps', result.state.1.Sound steps' := by
  have hwellFormed := hs.wellFormed.submit h
  cases h with
  | accepted _ _ hclosed hprogram hrun =>
      obtain ⟨step, -, hsound⟩ := hs.exists_step hclosed hprogram hrun
      exact ⟨steps ++ [step], hsound⟩
  | _ => exact ⟨steps, hs.keep hwellFormed rfl rfl⟩

end Sound

/-! ## all sessions -/

/-- The sessions that come from a new one by entering lines, with whatever sinks. -/
inductive Reachable (options : Options) : Session → Prop where
  | new : Reachable options { options := options }
  | submit {s : Session} {τ : Type} [Sink τ] (h : Reachable options s) (text : String) (out : τ) :
      Reachable options (Session.submit text (s, out)).state.1

/-- Every session is sound. -/
theorem Reachable.exists_sound {options : Options} {s : Session} (h : Reachable options s) :
    ∃ steps, s.Sound steps := by
  induction h with
  | new => exact ⟨[], sound_new options⟩
  | @submit s _ _ _ text out ih =>
      obtain ⟨steps, hs⟩ := ih
      exact hs.next (submitted s text out)

theorem Reachable.options_eq {options : Options} {s : Session} (h : Reachable options s) :
    s.options = options := by
  induction h with
  | new => rfl
  | @submit s _ _ _ text out ih => rw [(submitted s text out).options_eq, ih]

end Session

end LineScript
