import LineScript.Proofs.Session.Representation
import LineScript.Proofs.Token.Comment

/-!
# LineScript.Proofs.Session.Forgetting

A statement that fails leaves no trace.  What a session does next does not depend
on the records of its last run, and apart from these a failed statement leaves the
session it started from, with its lines counted.

* `Alike.next` — sessions that differ in their records only answer alike;
* `erased_after_failed` — what is left after a failed statement;
* `Session.forgets_failed` — its lines could as well have been blank.
-/

namespace LineScript

/-- The line holds nothing but blank characters. -/
def Entry.IsBlank (x : Entry) : Prop := ∀ c ∈ x.text.toList, Text.isBlank c = true

namespace Session

variable {σ : Type} [Sink σ] {s s' : Session} {text : String} {out : σ}

/-! ## the records of the last run -/

/-- A session without the records of its last run. -/
def erased (s : Session) : Session := { s with history := [] }

/-- Sessions that differ at most in the records of their last run. -/
def Alike (s s' : Session) : Prop := s.erased = s'.erased

theorem Alike.eq_update (h : Alike s s') : s' = { s with history := s'.history } := by
  cases s
  cases s'
  simpa [Alike, erased, eq_comm] using h

theorem Alike.prompt_eq (h : Alike s s') : s.prompt = s'.prompt := by
  rw [h.eq_update]
  rfl

/-- What a line gives does not depend on the records of the last run, and the records
of the run it starts do not either. -/
theorem Submitted.update_history {result : EStateM.Result Error (Session × σ) Prompt}
    (h : Submitted s text out result) (history : History) :
    ∃ t : Session, Submitted { s with history := history } text out
        (result.mapState fun after => (t, after.2)) ∧
      Alike result.state.1 t ∧
      ∀ prompt after, result = .ok prompt after → s.completes text = true →
        after.1.history = t.history := by
  cases h with
  | unread h => exact ⟨_, .unread h, rfl, nofun⟩
  | blank h =>
      refine ⟨_, .blank h, rfl, fun _ _ _ hcompletes => ?_⟩
      obtain ⟨tokens, htokens, hne, -⟩ := completes_iff.mp hcompletes
      cases h.symm.trans htokens
      contradiction
  | continued h hne hopen =>
      refine ⟨_, .continued h hne hopen, rfl, fun _ _ _ hcompletes => ?_⟩
      obtain ⟨tokens, htokens, -, hclosed⟩ := completes_iff.mp hcompletes
      cases h.symm.trans htokens
      omega
  | refused h hne hclosed hprogram => exact ⟨_, .refused h hne hclosed hprogram, rfl, nofun⟩
  | failed h hne hclosed hprogram hrun =>
      exact ⟨_, .failed h hne hclosed hprogram hrun, rfl, nofun⟩
  | accepted h hne hclosed hprogram hrun =>
      refine ⟨_, .accepted h hne hclosed hprogram hrun, rfl, ?_⟩
      rintro _ _ ⟨⟩ -
      rfl

/-- **Sessions that are alike** answer a line alike and stay alike, and they have the
same records when the line has completed a statement. -/
theorem Alike.next (h : Alike s s') (x : Entry) :
    x.answer s = x.answer s' ∧ Alike (x.next s) (x.next s') ∧
      ∀ prompt out, x.answer s = .ok prompt out → s.completes x.text = true →
        (x.next s).history = (x.next s').history := by
  obtain ⟨t, hsubmitted, halike, hhistory⟩ :=
    (submitted s x.text x.out).update_history s'.history
  rw [← h.eq_update] at hsubmitted
  have hresult : x.result s' = (x.result s).mapState fun after => (t, after.2) := hsubmitted.eq
  have hnext : x.next s' = t := by
    rw [Entry.next, hresult]
    cases x.result s <;> rfl
  have hanswer : x.answer s = x.answer s' := by
    rw [Entry.answer, Entry.answer, hresult]
    cases x.result s <;> rfl
  refine ⟨hanswer, hnext ▸ halike, fun prompt out hok hcompletes => ?_⟩
  rw [hnext]
  exact hhistory prompt (x.next s, out) (Entry.submitted_of_answer_ok hok).eq hcompletes

theorem Alike.after (h : Alike s s') (entries : List Entry) :
    Alike (s.after entries) (s'.after entries) := by
  induction entries generalizing s s' with
  | nil => exact h
  | cons x entries ih => exact ih (h.next x).2.1

/-! ## what a failed statement leaves -/

/-- The session with its accepted statements only, after `count` more lines. -/
def rest (s : Session) (count : Nat) : Session :=
  { options := s.options, committed := s.committed, nextLine := s.nextLine + count }

theorem erased_eq_rest (hpending : s.pending = []) (hdepth : s.depth = 0) :
    s.erased = s.rest 0 := by
  cases s
  subst hpending hdepth
  rfl

/-- Lines that are entered without an error, none of which completes a statement. -/
def Collects (s : Session) : List Entry → Prop
  | [] => True
  | x :: entries =>
    (∃ prompt out, x.answer s = .ok prompt out) ∧ s.completes x.text = false ∧
      (x.next s).Collects entries

/-- A line that completes no statement adds nothing to the accepted ones. -/
theorem rest_of_submitted_ok {s' : Session} {prompt : Prompt} {after : σ}
    (h : Submitted s text out (.ok prompt (s', after))) (hcompletes : s.completes text = false)
    (count : Nat) : s'.rest count = s.rest (count + 1) := by
  have hcount : s.nextLine + 1 + count = s.nextLine + (count + 1) := by omega
  cases h with
  | blank => exact congrArg (Session.mk _ _ _ _ _) hcount
  | continued => exact congrArg (Session.mk _ _ _ _ _) hcount
  | accepted h hne hclosed =>
      have hcompletes' := completes_iff.mpr ⟨_, h, hne, hclosed⟩
      rw [hcompletes] at hcompletes'
      contradiction

theorem rest_of_collects {entries : List Entry} (h : s.Collects entries) (count : Nat) :
    (s.after entries).rest count = s.rest (entries.length + count) := by
  induction entries generalizing s with
  | nil => rw [List.length_nil, Nat.zero_add]; rfl
  | cons x entries ih =>
      obtain ⟨⟨prompt, out, hanswer⟩, hcompletes, hentries⟩ := h
      have hfirst := rest_of_submitted_ok (Entry.submitted_of_answer_ok hanswer) hcompletes
        (entries.length + count)
      have hcount : entries.length + count + 1 = (x :: entries).length + count := by
        rw [List.length_cons]
        omega
      rw [← hcount, ← hfirst]
      exact ih hentries

/-- A line that fails leaves the accepted statements. -/
theorem erased_of_submitted_error {s' : Session} {error : Error} {after : σ}
    (h : Submitted s text out (.error error (s', after))) : s'.erased = s.rest 1 := by
  cases h with
  | unread => rfl
  | refused => rfl
  | failed => rfl

/-- **What is left after a failed statement**: the accepted ones, with its lines
counted. -/
theorem erased_after_failed {entries : List Entry} {last : Entry} {error : Error} {out : last.σ}
    (hcollects : s.Collects entries) (hfailed : last.answer (s.after entries) = .error error out) :
    (s.after (entries ++ [last])).erased = s.rest (entries.length + 1) := by
  rw [after_append, after_singleton,
    erased_of_submitted_error (Entry.submitted_of_answer_error hfailed), rest_of_collects hcollects]

/-! ## blank lines -/

/-- Entering a blank line only takes a number. -/
theorem next_of_isBlank {x : Entry} (h : x.IsBlank) : x.next s = s.advance := by
  have htokens : tokenizeLine x.text s.nextLine = .ok [] := by
    rw [tokenizeLine, Token.scanLine_blank h]
    rfl
  have hresult : x.result s = .ok s.prompt (s.advance, x.out) := Submitted.eq (.blank htokens)
  rw [Entry.next, hresult]
  rfl

theorem erased_after_blank {entries : List Entry} (h : ∀ x ∈ entries, x.IsBlank)
    (hpending : s.pending = []) (hdepth : s.depth = 0) :
    (s.after entries).erased = s.rest entries.length := by
  induction entries generalizing s with
  | nil => exact erased_eq_rest hpending hdepth
  | cons x entries ih =>
      obtain ⟨hx, hentries⟩ := List.forall_mem_cons.mp h
      have hnext : s.after (x :: entries) = s.advance.after entries :=
        congrArg (fun s => after s entries) (next_of_isBlank hx)
      have hcount : s.nextLine + 1 + entries.length = s.nextLine + (x :: entries).length := by
        rw [List.length_cons]
        omega
      have hentered : (s.advance.after entries).erased = s.advance.rest entries.length :=
        ih hentries hpending hdepth
      rw [hnext, hentered]
      exact congrArg (Session.mk _ _ _ _ _) hcount

/-- A failed statement leaves what as many blank lines leave. -/
theorem alike_after_failed {failing blanks : List Entry} {last : Entry} {error : Error}
    {out : last.σ} (hpending : s.pending = []) (hdepth : s.depth = 0)
    (hcollects : s.Collects failing) (hfails : last.answer (s.after failing) = .error error out)
    (hblank : ∀ x ∈ blanks, x.IsBlank) (hlength : blanks.length = failing.length + 1) :
    Alike (s.after (failing ++ [last])) (s.after blanks) := by
  rw [Alike, erased_after_failed hcollects hfails, erased_after_blank hblank hpending hdepth,
    hlength]

/-- **A failed statement leaves no trace.**  From a session that waits for a statement,
lines are collected and the last of them fails.  Had they all been blank, every line
entered later, with whatever sink, would be answered in the same way, with the same
numbers of lines and the same printing, and the session would wait for the same; and each
line that then completes a statement leaves the same records. -/
theorem forgets_failed (options : Options) (before failing blanks : List Entry) (last : Entry)
    (hwaits : (after { options := options } before).prompt = .statement)
    (hcollects : (after { options := options } before).Collects failing)
    (hfails : ∃ error out,
      last.answer (after { options := options } (before ++ failing)) = .error error out)
    (hblank : ∀ x ∈ blanks, x.IsBlank) (hlength : blanks.length = failing.length + 1)
    (later : List Entry) (x : Entry) :
    let s := after { options := options } (before ++ (failing ++ [last]) ++ later)
    let s' := after { options := options } (before ++ blanks ++ later)
    x.answer s = x.answer s' ∧ (x.next s).prompt = (x.next s').prompt ∧
      ∀ prompt out, x.answer s = .ok prompt out → s.completes x.text = true →
        (x.next s).history = (x.next s').history := by
  intro s s'
  obtain ⟨error, out, hfails⟩ := hfails
  have hwell := (wellFormed_new options).after before
  have hpending := prompt_eq_statement_iff.mp hwaits
  have hdepth := hwell.pending.depth_eq_zero_iff.mpr hpending
  have hs : s = ((after { options := options } before).after (failing ++ [last])).after later := by
    rw [← after_append, ← after_append, ← List.append_assoc]
  have hs' : s' = ((after { options := options } before).after blanks).after later := by
    rw [← after_append, ← after_append, ← List.append_assoc]
  rw [after_append] at hfails
  have hforgotten := alike_after_failed hpending hdepth hcollects hfails hblank hlength
  have hlater : Alike s s' := by
    rw [hs, hs']
    exact hforgotten.after later
  obtain ⟨hanswer, hnext, hhistory⟩ := hlater.next x
  exact ⟨hanswer, hnext.prompt_eq, hhistory⟩

/-- A line and a sink that takes everything. -/
def typed (text : String) : Entry := ⟨text, ({} : Log)⟩

/-- Lines that assign a name and print it. -/
def assigning : List Entry := [typed "x := 1", typed "print x"]

/-- The lines of a loop that prints in its first turn and fails in its second. -/
def failingLoop : List Entry := [typed "for 1..=0", typed "print 1 / _it"]

/-- The session after the first lines. -/
def assignedSession : Session where
  history := [.assign 1 "x" (.int 1), .print 2 (.int 1)]
  committed := [⟨1, [.word "x", .operator .assign, .literal (.int 1)]⟩,
    ⟨2, [.keyword .print, .word "x"]⟩]
  nextLine := 3

/-- A loop that fails on the fourth line changes the records, but the line after it is
answered as if there had been blank lines. -/
theorem forgets_failed_loop :
    let s := Session.after {} (assigning ++ (failingLoop ++ [typed "end"]))
    let s' := Session.after {} (assigning ++ List.replicate 3 (typed " "))
    (typed "end").answer (Session.after {} (assigning ++ failingLoop)) =
      .error (.eval ⟨.divisionByZero, 4⟩) (⟨["1\n"]⟩ : Log) ∧
    s.history ≠ s'.history ∧
    (typed "print x").answer s = .ok .statement (⟨["1\n"]⟩ : Log) ∧
    (typed "print x").answer s = (typed "print x").answer s' ∧
    ((typed "print x").next s).history = ((typed "print x").next s').history := by
  have hfirst : Session.after {} assigning = assignedSession := by cbv
  have hs : Session.after {} (assigning ++ (failingLoop ++ [typed "end"])) =
      { assignedSession with history := [.assign 1 "x" (.int 1)], nextLine := 6 } := by cbv
  have hs' : Session.after {} (assigning ++ List.replicate 3 (typed " ")) =
      { assignedSession with nextLine := 6 } := by cbv
  have hfails : (typed "end").answer (Session.after {} (assigning ++ failingLoop)) =
      .error (.eval ⟨.divisionByZero, 4⟩) (⟨["1\n"]⟩ : Log) := by cbv
  have hcollects : (Session.after {} assigning).Collects failingLoop := by
    rw [hfirst]
    refine ⟨⟨.continuation, ⟨[]⟩, ?_⟩, ?_, ⟨.continuation, ⟨[]⟩, ?_⟩, ?_, trivial⟩ <;> cbv
  have hblank : ∀ y ∈ List.replicate 3 (typed " "), y.IsBlank := by
    intro y hy
    obtain rfl := List.eq_of_mem_replicate hy
    simp [Entry.IsBlank, typed]
  have hanswer : (typed "print x").answer
      { assignedSession with history := [.assign 1 "x" (.int 1)], nextLine := 6 } =
      .ok .statement (⟨["1\n"]⟩ : Log) := by cbv
  have hcompletes : Session.completes
      { assignedSession with history := [.assign 1 "x" (.int 1)], nextLine := 6 } "print x" = true := by
    cbv
  obtain ⟨hsame, -, hhistory⟩ := forgets_failed {} assigning failingLoop
    (List.replicate 3 (typed " ")) (typed "end") (by rw [hfirst]; rfl) hcollects ⟨_, _, hfails⟩ hblank
    rfl [] (typed "print x")
  rw [List.append_nil, List.append_nil, hs, hs'] at hsame hhistory
  rw [hs, hs']
  exact ⟨hfails, by decide, hanswer, hsame, hhistory _ _ hanswer hcompletes⟩

end Session

end LineScript
