import LineScript.Proofs.Session.Invariant
import Mathlib

/-!
# LineScript.Proofs.Session.Replay

A session runs all accepted statements again for every new one, and yet it does
what running only the new one would do.  The accepted statements are read,
checked and run again without a failure, so whatever goes wrong is due to the new
statement; all that is left of them is their records, without those of printing,
and what their branches and loops print again.

* `submit_replays` — a completed statement is answered as if it ran alone after
  the accepted ones.
-/

namespace LineScript

namespace Session

variable {σ : Type} [Sink σ] {options : Options} {s : Session}

/-- Entering a line fails, with the given history and sink after it; no statement
is accepted or lost. -/
def Fails (s : Session) (text : String) (out : σ) (error : Error) (history : History)
    (after : σ) : Prop :=
  ∃ s', submit text (s, out) = .error error (s', after) ∧ s'.history = history ∧
    s'.committed = s.committed ∧ s'.prompt = .statement

/-- Entering a line completes a statement of the given lines, with the given
history and sink after it; the statement is accepted. -/
def Accepts (s : Session) (text : String) (out : σ) (lines : List SourceLine) (history : History)
    (after : σ) : Prop :=
  ∃ s', submit text (s, out) = .ok .statement (s', after) ∧ s'.history = history ∧
    s'.committed = s.committed ++ lines ∧ s'.prompt = .statement

/-- What the replay of the accepted statements leaves. -/
theorem Sound.evaluate_replayed {steps : List Step} (hs : s.Sound steps) :
    Transcript.evaluate ((steps.map Step.statement).filter fun e => !e.isPrint)
        ⟨[], ({} : Log)⟩ =
      .ok () ⟨recordsOf (replayed steps), ⟨textsOf (replayed steps)⟩⟩ := by
  have hreplay := hs.runs.replay.evaluate_eq (Log.unlimited {})
  rw [map_statement_replayed, Sink.takeAll_log] at hreplay
  exact hreplay

/-- **Replay refines running one by one**: in every session, on a sink without a limit,
a line that completes a statement is answered by reading the statement after the names
assigned so far, checking it alone, and running it alone against the records of
the accepted statements without printing. -/
theorem submit_replays (hs : Reachable options s) (text : String) (out : σ)
    (hout : Sink.Unlimited out) (tokens : List Token)
    (htokens : tokenizeLine text s.nextLine = .ok tokens)
    (hne : tokens ≠ []) (hclosed : s.depth + nestingDelta tokens ≤ 0) :
    ∃ (p : Program) (history : History) (texts : List String),
      parse s.committed = .ok p ∧
      Transcript.evaluate (p.filter fun e => !e.isPrint) ⟨[], ({} : Log)⟩ =
        .ok () ⟨history, ⟨texts⟩⟩ ∧
      match Parse.program (s.pending ++ [⟨s.nextLine, tokens⟩]) p.assigned.reverse with
      | .error fault _ => Fails s text out (.parse fault) s.history out
      | .ok new _ => ∃ e, new = [e] ∧
        match if options.check then Program.check [e] else .ok () with
        | .error fault => Fails s text out (.check fault) s.history out
        | .ok () =>
          match e.outcome history with
          | ⟨.ok record, printed⟩ =>
            Accepts s text out (s.pending ++ [⟨s.nextLine, tokens⟩]) (history ++ [record])
              (Sink.takeAll out (texts ++ printed))
          | ⟨.error fault, printed⟩ =>
            Fails s text out (.eval fault) history (Sink.takeAll out (texts ++ printed)) := by
  obtain ⟨steps, hsound⟩ := hs.exists_sound
  refine ⟨steps.map Step.statement, recordsOf (replayed steps), textsOf (replayed steps),
    hsound.reads, hsound.evaluate_replayed, ?_⟩
  have hsubmitted := submitted s text out
  generalize hresult : submit text (s, out) = result at hsubmitted
  -- Only the lines that complete a statement have these tokens.
  have htokens_eq : ∀ {tokens'}, tokenizeLine text s.nextLine = .ok tokens' → tokens = tokens' :=
    fun h => Except.ok.inj (htokens.symm.trans h)
  have hpending : s.pending ++ [⟨s.nextLine, tokens⟩] = (s.extend tokens).pending := rfl
  rw [hpending]
  cases hsubmitted with
  | unread hunread =>
      rw [hunread] at htokens
      contradiction
  | blank hblank => exact absurd (htokens_eq hblank) hne
  | continued hread _ hopen =>
      obtain rfl := htokens_eq hread
      omega
  | refused hread _ _ hprogram =>
      obtain rfl := htokens_eq hread
      rcases hsound.exists_of_program_error hclosed hprogram with
        ⟨fault, names, h, rfl⟩ | ⟨e, names, fault, h, hcheck, hfault, rfl⟩
      · rw [h]
        exact ⟨_, hresult, rfl, rfl, rfl⟩
      · rw [hs.options_eq] at hcheck
        rw [h]
        refine ⟨e, rfl, ?_⟩
        rw [if_pos hcheck, hfault]
        exact ⟨_, hresult, rfl, rfl, rfl⟩
  | failed hread _ _ hprogram hrun =>
      obtain rfl := htokens_eq hread
      obtain ⟨e, names, h, hvalid, rfl⟩ := hsound.exists_of_program_ok hclosed hprogram
      obtain ⟨texts, houtcome, rfl⟩ := hsound.outcome_of_failed hout hrun
      rw [hs.options_eq] at hvalid
      rw [h]
      refine ⟨e, rfl, ?_⟩
      rw [Options.check_of_validate hvalid, houtcome]
      exact ⟨_, hresult, rfl, rfl, rfl⟩
  | accepted hread _ _ hprogram hrun =>
      obtain rfl := htokens_eq hread
      obtain ⟨e, names, h, hvalid, rfl⟩ := hsound.exists_of_program_ok hclosed hprogram
      obtain ⟨record, texts, houtcome, rfl⟩ := hsound.outcome_of_accepted hout hrun
      rw [hs.options_eq] at hvalid
      rw [h]
      refine ⟨e, rfl, ?_⟩
      rw [Options.check_of_validate hvalid, houtcome]
      exact ⟨_, hresult, rfl, rfl, rfl⟩

/-- A session in which a name was assigned and printed. -/
def printing : Session :=
  (submit "print x" ((submit "x := 2" (({} : Session), ({} : Log))).state.1, ({} : Log))).state.1

/-- Printing once more leaves one record of printing and one line of text. -/
theorem submit_replays_printing :
    Accepts printing "print x" ({} : Log) [⟨3, [.keyword .print, .word "x"]⟩]
      [.assign 1 "x" (.int 2), .print 3 (.int 2)] ⟨["2\n"]⟩ := by
  have hreach : Reachable {} printing :=
    .submit (.submit .new "x := 2" ({} : Log)) "print x" ({} : Log)
  obtain ⟨p, history, texts, hparse, hreplay, hanswer⟩ := submit_replays hreach "print x"
    ({} : Log) (Log.unlimited {}) [.keyword .print, .word "x"] (by cbv) (by simp) (by cbv)
  have hcommitted : parse printing.committed =
      .ok [.assign 1 "x" (.literal 1 (.int 2)), .print 2 (.var 2 "x")] := by cbv
  obtain rfl := Except.ok.inj (hcommitted.symm.trans hparse)
  have hrun : Transcript.evaluate [.assign 1 "x" (.literal 1 (.int 2))] ⟨[], ({} : Log)⟩ =
      .ok () ⟨[.assign 1 "x" (.int 2)], ⟨[]⟩⟩ := by cbv
  cases hrun.symm.trans hreplay
  have hlines : printing.pending ++ [⟨printing.nextLine, [.keyword .print, .word "x"]⟩] =
      [⟨3, [.keyword .print, .word "x"]⟩] := by cbv
  have hassigned : (Program.assigned [.assign 1 "x" (.literal 1 (.int 2)),
      .print 2 (.var 2 "x")]).reverse = ["x"] := by cbv
  have hread : Parse.program [⟨3, [.keyword .print, .word "x"]⟩] ["x"] =
      .ok [.print 3 (.var 3 "x")] ["x"] := by cbv
  rw [hlines, hassigned, hread] at hanswer
  obtain ⟨e, he, hanswer⟩ := hanswer
  cases he
  have hcheck : Program.check [.print 3 (.var 3 "x")] = .ok () := by cbv
  have houtcome : Expr.outcome [.assign 1 "x" (.int 2)] (.print 3 (.var 3 "x")) =
      ⟨.ok (.print 3 (.int 2)), ["2\n"]⟩ := by cbv
  rw [if_pos rfl, hcheck, houtcome] at hanswer
  exact hanswer

end Session

end LineScript
