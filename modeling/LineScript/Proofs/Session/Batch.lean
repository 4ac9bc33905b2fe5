import LineScript.Proofs.Session.Invariant
import Mathlib

/-!
# LineScript.Proofs.Session.Batch

A text entered line by line and the same text run as a whole.  Both succeed
together.  A session keeps the same records, without those of earlier printing,
and prints the same, except that what branches and loops print is repeated for
every statement after them.

* `Follows.submit`, `Follows.submitAll` — what a session that never failed has in
  common with the lines entered;
* `Follows.exists_submitAll` — lines that run as a program can be entered;
* `runSource_iff_submitAll` — the two agree.
-/

namespace LineScript

/-! ## what a session shows of its steps -/

/-- The records after the last of the steps has run in a session: earlier
printing is left out. -/
def shownRecords (steps : List Step) : History :=
  (recordsOf steps).dropLast.filter (fun record => !record.isPrint) ++
    (recordsOf steps).getLast?.toList

/-- The texts printed in a session by further steps after those that are done:
for each of them all steps before it run again, without top-level printing. -/
def repeatedTexts (done : List Step) : List Step → List String
  | [] => []
  | step :: steps =>
    textsOf (replayed done) ++ step.texts ++ repeatedTexts (done ++ [step]) steps

theorem repeatedTexts_append_singleton (done steps : List Step) (step : Step) :
    repeatedTexts done (steps ++ [step]) =
      repeatedTexts done steps ++ (textsOf (replayed (done ++ steps)) ++ step.texts) := by
  induction steps generalizing done with
  | nil => simp [repeatedTexts]
  | cons first steps ih => simp [repeatedTexts, ih]

/-- If only printing prints, nothing is repeated. -/
theorem repeatedTexts_eq_textsOf {done steps : List Step}
    (h : ∀ step ∈ done ++ steps, step.statement.isPrint = false → step.texts = []) :
    repeatedTexts done steps = textsOf steps := by
  induction steps generalizing done with
  | nil => rfl
  | cons step steps ih =>
      have hdone : textsOf (replayed done) = [] := by
        rw [List.flatMap_eq_nil_iff]
        intro first hfirst
        obtain ⟨hmem, hprint⟩ := List.mem_filter.mp hfirst
        exact h first (List.mem_append_left _ hmem) (by simpa using hprint)
      have hrest : repeatedTexts (done ++ [step]) steps = textsOf steps := by
        apply ih
        simpa using h
      rw [repeatedTexts, hdone, hrest]
      rfl

theorem Runs.recordsOf_replayed {h : History} {steps : List Step} (hruns : Runs h steps) :
    recordsOf (replayed steps) = (recordsOf steps).filter fun record => !record.isPrint := by
  have hprint := hruns.isPrint_record
  rw [replayed, List.filter_map]
  congr 1
  refine List.filter_congr fun step hstep => ?_
  simp [hprint step hstep]

theorem Runs.shownRecords_append_singleton {steps : List Step} {step : Step}
    (hruns : Runs [] steps) :
    shownRecords (steps ++ [step]) = recordsOf (replayed steps) ++ [step.record] := by
  rw [hruns.recordsOf_replayed]
  simp [shownRecords]

/-- The branches and loops at the top level of a program print nothing when it
runs. -/
def Program.Quiet (p : Program) : Prop :=
  ∀ before e after, p = before ++ e :: after → e.isBlock = true →
    ∀ t, Transcript.evaluate before ⟨[], ({} : Log)⟩ = .ok () t →
      (e.outcome t.history).texts = []

theorem Program.quiet_of_isBlock {p : Program} (h : ∀ e ∈ p, e.isBlock = false) : p.Quiet := by
  intro before e after hp hblock
  rw [h e (by rw [hp]; simp)] at hblock
  contradiction

/-- In a quiet run only printing prints. -/
theorem Runs.texts_eq_nil {steps : List Step} (hruns : Runs [] steps)
    (hquiet : Program.Quiet (steps.map Step.statement)) :
    ∀ step ∈ steps, step.statement.isPrint = false → step.texts = [] := by
  intro step hstep hprint
  obtain ⟨before, after, rfl⟩ := List.append_of_mem hstep
  obtain ⟨hbefore, hrest⟩ := Runs.append_iff.mp hruns
  have houtcome : step.statement.outcome (recordsOf before) = ⟨.ok step.record, step.texts⟩ := by
    cases hrest with
    | cons h _ => exact h
  cases hblock : step.statement.isBlock with
  | true =>
      have hsplit : (before ++ step :: after).map Step.statement =
          before.map Step.statement ++ step.statement :: after.map Step.statement := by
        simp
      have htexts := hquiet _ _ _ hsplit hblock _ (hbefore.evaluate_eq (Log.unlimited {}))
      rw [List.nil_append, houtcome] at htexts
      exact htexts
  | false =>
      have htexts := Expr.texts_outcome_eq_nil (h := recordsOf before) hprint hblock
      rw [houtcome] at htexts
      exact htexts

/-! ## lines of text -/

/-- The line of tokens that a line of text adds, if it adds one. -/
def numbered (number : Nat) (tokens : List Token) : List SourceLine :=
  if tokens.isEmpty then [] else [⟨number, tokens⟩]

theorem numbered_nil (number : Nat) : numbered number [] = [] := rfl

theorem numbered_of_ne_nil {number : Nat} {tokens : List Token} (h : tokens ≠ []) :
    numbered number tokens = [⟨number, tokens⟩] := by
  rw [numbered, if_neg (by simpa using h)]

theorem tokenizeLines_cons_eq_ok_iff {number : Nat} {text : String} {texts : List String}
    {lines : List SourceLine} :
    tokenizeLines number (text :: texts) = .ok lines ↔
      ∃ tokens more, tokenizeLine text number = .ok tokens ∧
        tokenizeLines (number + 1) texts = .ok more ∧ lines = numbered number tokens ++ more := by
  have hlines : ∀ (tokens : List Token) (more : List SourceLine),
      (if tokens.isEmpty then more else ⟨number, tokens⟩ :: more) =
        numbered number tokens ++ more := by
    intro tokens more
    cases tokens <;> rfl
  rw [tokenizeLines, Except.bind_eq_ok_iff]
  constructor
  · rintro ⟨tokens, htokens, h⟩
    obtain ⟨more, hmore, h⟩ := Except.bind_eq_ok_iff.mp h
    have heq := Except.ok.inj h
    rw [hlines] at heq
    exact ⟨tokens, more, htokens, hmore, heq.symm⟩
  · rintro ⟨tokens, more, htokens, hmore, rfl⟩
    refine ⟨tokens, htokens, Except.bind_eq_ok_iff.mpr ⟨more, hmore, ?_⟩⟩
    rw [hlines]
    rfl

/-! ## lines that are accepted one by one -/

namespace Session

variable {σ : Type} [Sink σ]

/-- Enter lines one by one, up to the first failure. -/
def submitAll : List String → EStateM Error (Session × σ) Unit
  | [] => pure ()
  | text :: texts => do
    let _ ← submit text
    submitAll texts

/-- A session that never failed since it was new, with the sink it was given then
and the one it has now: its statements are those of the given lines. -/
structure Follows (options : Options) (out : σ) (lines : List SourceLine) (s : Session)
    (after : σ) (steps : List Step) : Prop where
  sound : s.Sound steps
  options_eq : s.options = options
  lines_eq : s.committed ++ s.pending = lines
  history_eq : s.history = shownRecords steps
  after_eq : after = Sink.takeAll out (repeatedTexts [] steps)

theorem follows_new (options : Options) (out : σ) :
    Follows options out [] { options := options } out [] where
  sound := sound_new options
  options_eq := rfl
  lines_eq := rfl
  history_eq := rfl
  after_eq := rfl

namespace Follows

variable {options : Options} {out after after' : σ} {lines : List SourceLine} {s s' : Session}
  {steps : List Step}

/-- Lines that are read leave nothing to collect. -/
theorem pending_eq_nil (h : Follows options out lines s after steps) {p : Program}
    (hread : parse lines = .ok p) : s.pending = [] := by
  rw [← h.lines_eq] at hread
  obtain ⟨rest, names, hrest, -⟩ := exists_program_of_parse_append h.sound.reads hread
  obtain ⟨groups, hgroups, -⟩ := Parse.program_eq_ok_iff_groups.mp hrest
  exact h.sound.wellFormed.pending.eq_nil_of_groupLines hgroups

/-- If the sink has no limit at first, it has none now. -/
theorem unlimited (h : Follows options out lines s after steps) (hout : Sink.Unlimited out) :
    Sink.Unlimited after :=
  h.after_eq ▸ hout.takeAll _

/-- A line that is accepted adds its tokens, and at most one step. -/
theorem submit (h : Follows options out lines s after steps) (hout : Sink.Unlimited out)
    {text : String} {prompt : Prompt}
    (hsubmit : Session.submit text (s, after) = .ok prompt (s', after')) :
    ∃ tokens steps', tokenizeLine text s.nextLine = .ok tokens ∧
      s'.nextLine = s.nextLine + 1 ∧
      Follows options out (lines ++ numbered s.nextLine tokens) s' after' steps' := by
  cases submit_eq_iff.mp hsubmit with
  | blank htokens =>
      refine ⟨[], steps, htokens, rfl, h.sound.keep h.sound.wellFormed.advance rfl rfl,
        h.options_eq, ?_, h.history_eq, h.after_eq⟩
      rw [numbered_nil, List.append_nil]
      exact h.lines_eq
  | @continued tokens htokens hne hopen =>
      refine ⟨tokens, steps, htokens, rfl, h.sound.keep (h.sound.wellFormed.extend hopen) rfl rfl,
        h.options_eq, ?_, h.history_eq, h.after_eq⟩
      rw [numbered_of_ne_nil hne, ← h.lines_eq, List.append_assoc]
      rfl
  | @accepted tokens _ _ htokens hne hclosed hprogram hrun =>
      obtain ⟨e, names, hread, hvalid, rfl⟩ := h.sound.exists_of_program_ok hclosed hprogram
      obtain ⟨record, texts, houtcome, rfl⟩ :=
        h.sound.outcome_of_accepted (h.unlimited hout) hrun
      refine ⟨tokens, _, htokens, rfl, h.sound.commit ⟨e, record, texts⟩ hread hvalid houtcome,
        h.options_eq, ?_, ?_, ?_⟩
      · rw [numbered_of_ne_nil hne, ← h.lines_eq, List.append_assoc]
        exact List.append_nil _
      · rw [h.sound.runs.shownRecords_append_singleton]
        rfl
      · rw [repeatedTexts_append_singleton, Sink.takeAll_append out, ← h.after_eq]
        rfl

/-- Lines that are all accepted add their tokens. -/
theorem submitAll (h : Follows options out lines s after steps) (hout : Sink.Unlimited out)
    {texts : List String}
    (hsubmit : Session.submitAll texts (s, after) = .ok () (s', after')) :
    ∃ more steps', tokenizeLines s.nextLine texts = .ok more ∧
      Follows options out (lines ++ more) s' after' steps' := by
  induction texts generalizing lines s after steps with
  | nil =>
      obtain ⟨-, heq⟩ := EStateM.pure_eq_ok_iff.mp hsubmit
      cases heq
      exact ⟨[], steps, rfl, by rwa [List.append_nil]⟩
  | cons text texts ih =>
      obtain ⟨prompt, ⟨s₁, after₁⟩, hfirst, hrest⟩ := EStateM.bind_eq_ok_iff.mp hsubmit
      obtain ⟨tokens, steps₁, htokens, hnext, hfollows⟩ := h.submit hout hfirst
      obtain ⟨more, steps', hmore, hlast⟩ := ih hfollows hrest
      rw [hnext] at hmore
      refine ⟨numbered s.nextLine tokens ++ more, steps', ?_, by rwa [← List.append_assoc]⟩
      exact tokenizeLines_cons_eq_ok_iff.mpr ⟨tokens, more, htokens, hmore, rfl⟩

/-- If a completed statement and further lines make the accepted ones a program that runs,
then it is read, checked and run after them. -/
theorem exists_outcome (h : Follows options out lines s after steps) {tokens : List Token}
    {more : List SourceLine} {all : List Step} (hne : tokens ≠ [])
    (hclosed : s.depth + nestingDelta tokens ≤ 0)
    (hread : parse (lines ++ (numbered s.nextLine tokens ++ more)) =
      .ok (all.map Step.statement))
    (hvalid : options.validate (all.map Step.statement) = .ok ()) (hruns : Runs [] all) :
    ∃ e names record texts, Parse.program (s.extend tokens).pending
        (Program.assigned (steps.map Step.statement)).reverse = .ok [e] names ∧
      s.options.validate [e] = .ok () ∧
      e.outcome (recordsOf (replayed steps)) = ⟨.ok record, texts⟩ := by
  have hlines : lines ++ (numbered s.nextLine tokens ++ more) =
      s.committed ++ ((s.extend tokens).pending ++ more) := by
    rw [numbered_of_ne_nil hne, ← h.lines_eq, List.append_assoc, ← List.append_assoc s.pending]
    rfl
  rw [hlines] at hread
  -- The whole program starts with the accepted statements; the completed one is next.
  obtain ⟨rest, names, hrest, hall⟩ := exists_program_of_parse_append h.sound.reads hread
  obtain ⟨e, others, between, hfirst, rfl⟩ :=
    h.sound.wellFormed.pending.program_enter_of_append hclosed hrest
  have hchecked : s.options.validate [e] = .ok () := by
    rw [h.options_eq, Options.validate_eq_ok_iff]
    rw [Options.validate_eq_ok_iff] at hvalid
    intro hcheck e' he'
    obtain rfl := List.mem_singleton.mp he'
    exact hvalid hcheck e' (by rw [hall]; simp)
  obtain ⟨record, texts, houtcome⟩ := h.sound.runs.exists_outcome hruns hall
  rw [List.nil_append, ← h.sound.runs.outcome_replayed] at houtcome
  exact ⟨e, between, record, texts, hfirst, hchecked, houtcome⟩

/-- A line is accepted, if it and further lines make the accepted ones a program
that runs. -/
theorem exists_submit (h : Follows options out lines s after steps) (hout : Sink.Unlimited out)
    {text : String} {tokens : List Token} {more : List SourceLine} {all : List Step}
    (htokens : tokenizeLine text s.nextLine = .ok tokens)
    (hread : parse (lines ++ (numbered s.nextLine tokens ++ more)) =
      .ok (all.map Step.statement))
    (hvalid : options.validate (all.map Step.statement) = .ok ()) (hruns : Runs [] all) :
    ∃ prompt s' after', Session.submit text (s, after) = .ok prompt (s', after') := by
  have hsubmitted := submitted s text after
  generalize Session.submit text (s, after) = result at hsubmitted
  cases hsubmitted with
  | unread hunread =>
      rw [hunread] at htokens
      contradiction
  | blank => exact ⟨_, _, _, rfl⟩
  | continued => exact ⟨_, _, _, rfl⟩
  | refused htokens' hne hclosed hprogram =>
      obtain rfl := Except.ok.inj (htokens.symm.trans htokens')
      obtain ⟨e, names, record, texts, hfirst, hchecked, -⟩ :=
        h.exists_outcome hne hclosed hread hvalid hruns
      rcases h.sound.exists_of_program_error hclosed hprogram with
        ⟨_, _, hmisread, -⟩ | ⟨_, _, _, hsecond, hcheck, hfault, -⟩
      · rw [hfirst] at hmisread
        contradiction
      · cases hfirst.symm.trans hsecond
        rw [Options.validate, if_pos hcheck, hfault] at hchecked
        contradiction
  | failed htokens' hne hclosed hprogram hrun =>
      obtain rfl := Except.ok.inj (htokens.symm.trans htokens')
      obtain ⟨e, names, record, texts, hfirst, -, houtcome⟩ :=
        h.exists_outcome hne hclosed hread hvalid hruns
      obtain ⟨_, _, hsecond, -, rfl⟩ := h.sound.exists_of_program_ok hclosed hprogram
      cases hfirst.symm.trans hsecond
      obtain ⟨_, hfailed, -⟩ := h.sound.outcome_of_failed (h.unlimited hout) hrun
      cases houtcome.symm.trans hfailed
  | accepted => exact ⟨_, _, _, rfl⟩

/-- Further lines are all accepted, if they make the accepted ones a program that
runs. -/
theorem exists_submitAll (h : Follows options out lines s after steps)
    (hout : Sink.Unlimited out) {texts : List String} {more : List SourceLine} {all : List Step}
    (hmore : tokenizeLines s.nextLine texts = .ok more)
    (hread : parse (lines ++ more) = .ok (all.map Step.statement))
    (hvalid : options.validate (all.map Step.statement) = .ok ()) (hruns : Runs [] all) :
    ∃ s' after', Session.submitAll texts (s, after) = .ok () (s', after') := by
  induction texts generalizing lines s after steps more with
  | nil => exact ⟨s, after, rfl⟩
  | cons text texts ih =>
      obtain ⟨tokens, others, htokens, hothers, rfl⟩ := tokenizeLines_cons_eq_ok_iff.mp hmore
      obtain ⟨prompt, s₁, after₁, hsubmit⟩ := h.exists_submit hout htokens hread hvalid hruns
      obtain ⟨tokens', steps₁, htokens', hnext, hfollows⟩ := h.submit hout hsubmit
      obtain rfl : tokens = tokens' := Except.ok.inj (htokens.symm.trans htokens')
      rw [← hnext] at hothers
      rw [← List.append_assoc] at hread
      obtain ⟨s', after', hrest⟩ := ih hfollows hothers hread
      exact ⟨s', after', EStateM.bind_eq_ok_iff.mpr ⟨prompt, (s₁, after₁), hsubmit, hrest⟩⟩

end Follows

end Session

/-! ## running a whole text -/

variable {σ : Type} [Sink σ] {options : Options} {source : String} {out after : σ}

/-- A text that is ready to run has been cut into lines, read and checked. -/
theorem compile_eq_ok_iff {p : Program} :
    compile options source = .ok p ↔
      ∃ lines, tokenize source = .ok lines ∧ parse lines = .ok p ∧
        options.validate p = .ok () := by
  rw [compile, Except.bind_eq_ok_iff]
  constructor
  · rintro ⟨lines, hlines, h⟩
    obtain ⟨q, hq, h⟩ := Except.bind_eq_ok_iff.mp h
    obtain ⟨_, hvalid, h⟩ := Except.bind_eq_ok_iff.mp h
    obtain rfl := Except.ok.inj h
    exact ⟨lines, Except.mapError_eq_ok_iff.mp hlines, Except.mapError_eq_ok_iff.mp hq, hvalid⟩
  · rintro ⟨lines, hlines, hp, hvalid⟩
    refine ⟨lines, Except.mapError_eq_ok_iff.mpr hlines, ?_⟩
    refine Except.bind_eq_ok_iff.mpr ⟨p, Except.mapError_eq_ok_iff.mpr hp, ?_⟩
    exact Except.bind_eq_ok_iff.mpr ⟨(), hvalid, rfl⟩

/-- A text runs to its end exactly if it is ready to run as the statements of
steps. -/
theorem runSource_eq_ok_iff {history : History} (hout : Sink.Unlimited out) :
    runSource options source out = .ok history after ↔
      ∃ steps, compile options source = .ok (steps.map Step.statement) ∧ Runs [] steps ∧
        history = recordsOf steps ∧ after = Sink.takeAll out (textsOf steps) := by
  constructor
  · intro h
    unfold runSource at h
    split at h
    · contradiction
    · next p hp =>
      split at h
      · next t hrun =>
        cases h
        obtain ⟨steps, hruns, rfl, rfl⟩ := (evaluate_eq_ok_iff hout).mp hrun
        exact ⟨steps, hp, hruns, rfl, rfl⟩
      · contradiction
  · rintro ⟨steps, hp, hruns, rfl, rfl⟩
    have hrun := hruns.evaluate_eq hout
    simp only [runSource, hp, hrun]
    rfl

/-- The lines of a text that are entered without a failure. -/
theorem Session.exists_follows {s : Session} (hout : Sink.Unlimited out)
    (h : submitAll (Text.lines source) ({ options := options }, out) = .ok () (s, after)) :
    ∃ lines steps, tokenize source = .ok lines ∧ Follows options out lines s after steps := by
  obtain ⟨lines, steps, hlines, hfollows⟩ := (follows_new options out).submitAll hout h
  exact ⟨lines, steps, hlines, hfollows⟩

/-- The lines of a text that is ready to run leave nothing to collect. -/
theorem Session.pending_eq_nil_of_compile {s : Session} {p : Program}
    (hout : Sink.Unlimited out)
    (h : submitAll (Text.lines source) ({ options := options }, out) = .ok () (s, after))
    (hp : compile options source = .ok p) : s.pending = [] := by
  obtain ⟨lines, steps, hlines, hfollows⟩ := exists_follows hout h
  obtain ⟨lines', hlines', hread, -⟩ := compile_eq_ok_iff.mp hp
  obtain rfl : lines = lines' := Except.ok.inj (hlines.symm.trans hlines')
  exact hfollows.pending_eq_nil hread

/-- A text whose lines are entered without a failure, and leave nothing to
collect, runs by the steps of the session. -/
theorem Session.exists_steps {s : Session} (hout : Sink.Unlimited out)
    (h : submitAll (Text.lines source) ({ options := options }, out) = .ok () (s, after))
    (hpending : s.pending = []) :
    ∃ steps, Runs [] steps ∧ compile options source = .ok (steps.map Step.statement) ∧
      s.history = shownRecords steps ∧ after = Sink.takeAll out (repeatedTexts [] steps) := by
  obtain ⟨lines, steps, hlines, hfollows⟩ := exists_follows hout h
  have hcommitted : s.committed = lines := by
    rw [← hfollows.lines_eq, hpending, List.append_nil]
  have hread := hfollows.sound.reads
  have hvalid := hfollows.sound.valid
  rw [hcommitted] at hread
  rw [hfollows.options_eq] at hvalid
  have hcompile := compile_eq_ok_iff.mpr ⟨lines, hlines, hread, hvalid⟩
  exact ⟨steps, hfollows.sound.runs, hcompile, hfollows.history_eq, hfollows.after_eq⟩

/-- The lines of a text that runs are entered without a failure. -/
theorem Session.exists_submitAll {history : History} (hout : Sink.Unlimited out)
    (h : runSource options source out = .ok history after) :
    ∃ s after', submitAll (Text.lines source) ({ options := options }, out) =
      .ok () (s, after') := by
  obtain ⟨steps, hcompile, hruns, -⟩ := (runSource_eq_ok_iff hout).mp h
  obtain ⟨lines, hlines, hread, hvalid⟩ := compile_eq_ok_iff.mp hcompile
  exact (follows_new options out).exists_submitAll hout hlines hread hvalid hruns

/-- **Running a text and entering its lines agree**, on a sink without a limit: both
succeed together, the records are the same except for earlier printing, and so is what
is printed, if no branch or loop at top level prints. -/
theorem runSource_iff_submitAll (options : Options) (source : String) (out : σ)
    (hout : Sink.Unlimited out) :
    ((∃ history after, runSource options source out = .ok history after) ↔
      ∃ s after, Session.submitAll (Text.lines source) ({ options := options }, out) =
        .ok () (s, after) ∧ s.prompt = .statement) ∧
    ∀ history after s after', runSource options source out = .ok history after →
      Session.submitAll (Text.lines source) ({ options := options }, out) =
        .ok () (s, after') →
      s.history = history.dropLast.filter (fun record => !record.isPrint) ++
          history.getLast?.toList ∧
        ∀ p, compile options source = .ok p → p.Quiet → after' = after := by
  constructor
  · constructor
    · rintro ⟨history, after, hrun⟩
      obtain ⟨s, after', hsubmit⟩ := Session.exists_submitAll hout hrun
      obtain ⟨steps, hcompile, -⟩ := (runSource_eq_ok_iff hout).mp hrun
      have hpending := Session.pending_eq_nil_of_compile hout hsubmit hcompile
      exact ⟨s, after', hsubmit, Session.prompt_eq_statement_iff.mpr hpending⟩
    · rintro ⟨s, after, hsubmit, hprompt⟩
      have hpending := Session.prompt_eq_statement_iff.mp hprompt
      obtain ⟨steps, hruns, hcompile, -⟩ := Session.exists_steps hout hsubmit hpending
      exact ⟨_, _, (runSource_eq_ok_iff hout).mpr ⟨steps, hcompile, hruns, rfl, rfl⟩⟩
  · intro history after s after' hrun hsubmit
    obtain ⟨_, hready, -⟩ := (runSource_eq_ok_iff hout).mp hrun
    have hpending := Session.pending_eq_nil_of_compile hout hsubmit hready
    obtain ⟨steps, hruns, hcompile, hhistory, hafter⟩ := Session.exists_steps hout hsubmit hpending
    have hbatch : runSource options source out = _ :=
      (runSource_eq_ok_iff hout).mpr ⟨steps, hcompile, hruns, rfl, rfl⟩
    rw [hrun] at hbatch
    cases hbatch
    refine ⟨hhistory, fun p hp hquiet => ?_⟩
    obtain rfl := Except.ok.inj (hp.symm.trans hcompile)
    have hquietSteps := hruns.texts_eq_nil hquiet
    rw [hafter, repeatedTexts_eq_textsOf (by simpa using hquietSteps)]

/-- The record of the first printing is not kept, and nothing is printed twice. -/
theorem runSource_iff_submitAll_printing :
    ∃ s, Session.submitAll (Text.lines "print 1\nx := 2\nprint x") (({} : Session), ({} : Log)) =
        .ok () (s, ⟨["1\n", "2\n"]⟩) ∧
      s.prompt = .statement ∧ s.history = [.assign 2 "x" (.int 2), .print 3 (.int 2)] := by
  obtain ⟨hiff, hagree⟩ :=
    runSource_iff_submitAll {} "print 1\nx := 2\nprint x" ({} : Log) (Log.unlimited {})
  have hcompile : compile {} "print 1\nx := 2\nprint x" =
      .ok [.print 1 (.literal 1 (.int 1)), .assign 2 "x" (.literal 2 (.int 2)),
        .print 3 (.var 3 "x")] := by cbv
  have hrun : runSource {} "print 1\nx := 2\nprint x" ({} : Log) =
      .ok [.print 1 (.int 1), .assign 2 "x" (.int 2), .print 3 (.int 2)]
        ⟨["1\n", "2\n"]⟩ := by cbv
  obtain ⟨s, after, hsubmit, hprompt⟩ := hiff.mp ⟨_, _, hrun⟩
  obtain ⟨hhistory, hout⟩ := hagree _ _ s after hrun hsubmit
  obtain rfl := hout _ hcompile (Program.quiet_of_isBlock (by simp [Expr.isBlock]))
  exact ⟨s, hsubmit, hprompt, hhistory⟩

end LineScript
