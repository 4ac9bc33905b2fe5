import LineScript.Proofs.Stateful
import LineScript.Session

/-!
# LineScript.Proofs.Session.Dialogue

Lines entered one after another, each with a sink of its own, which may refuse what
is printed.  Whatever the session and the sink, entering a line does one of six
things; everything about sessions that does not depend on what sinks accept follows
from this list.

* `submit_eq_iff` — what entering a line gives is listed;
* `Entry.next`, `Session.after` — one line, and many.
-/

namespace LineScript

namespace Session

variable {σ : Type} [Sink σ] {s : Session} {text : String} {out : σ}

/-! ## entering a line -/

theorem prompt_eq_statement_iff {s : Session} : s.prompt = .statement ↔ s.pending = [] := by
  rw [prompt]
  cases s.pending <;> simp

/-- The session when the next line has taken its number. -/
def advance (s : Session) : Session := { s with nextLine := s.nextLine + 1 }

/-- The session when the next line, with the given tokens, has been added to the
statement being entered. -/
def extend (s : Session) (tokens : List Token) : Session :=
  s.advance.enter ⟨s.nextLine, tokens⟩

/-- Adding a line does not change which line comes first, if there is one, and
otherwise the line itself comes first. -/
theorem firstPending_extend (s : Session) (tokens : List Token) :
    (s.extend tokens).firstPending = s.firstPending := by
  unfold firstPending
  show ((s.pending ++ [(⟨s.nextLine, tokens⟩ : SourceLine)]).head?.map _).getD _ = _
  cases s.pending <;> rfl

theorem complete_of_program_error {error : Error} (h : s.program = .error error) :
    complete (s, out) = .error error (s.discard, out) := by
  simp only [complete, run, h]

theorem complete_of_program_ok {p : Program} (h : s.program = .ok p) :
    complete (s, out) =
      match Transcript.evaluate p ⟨[], out⟩ with
      | .ok () t => .ok .statement ({ s with history := t.history }.commit, t.out)
      | .error fault t =>
        .error (.eval fault) ({ s with history := t.history }.discard, t.out) := by
  simp only [complete, run, h]
  cases Transcript.evaluate p ⟨[], out⟩ <;> rfl

/-- Whether a line completes a statement: it has tokens, and no block is open after
it. -/
def completes (s : Session) (text : String) : Bool :=
  match tokenizeLine text s.nextLine with
  | .ok tokens => !tokens.isEmpty && s.depth + nestingDelta tokens ≤ 0
  | .error _ => false

theorem completes_iff :
    s.completes text = true ↔ ∃ tokens, tokenizeLine text s.nextLine = .ok tokens ∧
      tokens ≠ [] ∧ s.depth + nestingDelta tokens ≤ 0 := by
  unfold completes
  split
  · next tokens htokens => simp [htokens]
  · next fault hfault => simp [hfault]

/-- What entering a line can give. -/
inductive Submitted (s : Session) (text : String) (out : σ) :
    EStateM.Result Error (Session × σ) Prompt → Prop where
  /-- The line cannot be cut into tokens. -/
  | unread {fault : Fault LexCause} (h : tokenizeLine text s.nextLine = .error fault) :
      Submitted s text out (.error (.lex fault) (s.advance.discard, out))
  /-- The line has no tokens. -/
  | blank (h : tokenizeLine text s.nextLine = .ok []) :
      Submitted s text out (.ok s.prompt (s.advance, out))
  /-- The line leaves blocks open. -/
  | continued {tokens : List Token} (h : tokenizeLine text s.nextLine = .ok tokens)
      (hne : tokens ≠ []) (hopen : 0 < s.depth + nestingDelta tokens) :
      Submitted s text out (.ok .continuation (s.extend tokens, out))
  /-- The line completes a statement that is not read or not accepted by the check. -/
  | refused {tokens : List Token} {error : Error} (h : tokenizeLine text s.nextLine = .ok tokens)
      (hne : tokens ≠ []) (hclosed : s.depth + nestingDelta tokens ≤ 0)
      (hprogram : (s.extend tokens).program = .error error) :
      Submitted s text out (.error error ((s.extend tokens).discard, out))
  /-- The line completes a statement, and the run stops. -/
  | failed {tokens : List Token} {p : Program} {fault : Fault EvalCause} {t : Transcript σ}
      (h : tokenizeLine text s.nextLine = .ok tokens) (hne : tokens ≠ [])
      (hclosed : s.depth + nestingDelta tokens ≤ 0) (hprogram : (s.extend tokens).program = .ok p)
      (hrun : Transcript.evaluate p ⟨[], out⟩ = .error fault t) :
      Submitted s text out
        (.error (.eval fault) ({ s.extend tokens with history := t.history }.discard, t.out))
  /-- The line completes a statement, and everything runs. -/
  | accepted {tokens : List Token} {p : Program} {t : Transcript σ}
      (h : tokenizeLine text s.nextLine = .ok tokens) (hne : tokens ≠ [])
      (hclosed : s.depth + nestingDelta tokens ≤ 0) (hprogram : (s.extend tokens).program = .ok p)
      (hrun : Transcript.evaluate p ⟨[], out⟩ = .ok () t) :
      Submitted s text out
        (.ok .statement ({ s.extend tokens with history := t.history }.commit, t.out))

theorem submit_of_ne_nil {tokens : List Token} (h : tokenizeLine text s.nextLine = .ok tokens)
    (hne : tokens ≠ []) :
    submit text (s, out) =
      if 0 < s.depth + nestingDelta tokens then .ok .continuation (s.extend tokens, out)
      else complete (s.extend tokens, out) := by
  cases tokens with
  | nil => contradiction
  | cons token tokens =>
      simp only [submit, h]
      rfl

theorem submit_of_closed {tokens : List Token} (h : tokenizeLine text s.nextLine = .ok tokens)
    (hne : tokens ≠ []) (hclosed : s.depth + nestingDelta tokens ≤ 0) :
    submit text (s, out) = complete (s.extend tokens, out) := by
  have hnot : ¬ 0 < s.depth + nestingDelta tokens := by omega
  rw [submit_of_ne_nil h hne, if_neg hnot]

theorem Submitted.eq {result : EStateM.Result Error (Session × σ) Prompt}
    (h : Submitted s text out result) : submit text (s, out) = result := by
  cases h with
  | unread h =>
      simp only [submit, h]
      rfl
  | blank h =>
      simp only [submit, h]
      rfl
  | continued h hne hopen => rw [submit_of_ne_nil h hne, if_pos hopen]
  | refused h hne hclosed hprogram =>
      rw [submit_of_closed h hne hclosed, complete_of_program_error hprogram]
  | failed h hne hclosed hprogram hrun =>
      rw [submit_of_closed h hne hclosed, complete_of_program_ok hprogram, hrun]
  | accepted h hne hclosed hprogram hrun =>
      rw [submit_of_closed h hne hclosed, complete_of_program_ok hprogram, hrun]

theorem exists_submitted (s : Session) (text : String) (out : σ) :
    ∃ result, Submitted s text out result := by
  cases htokens : tokenizeLine text s.nextLine with
  | error fault => exact ⟨_, .unread htokens⟩
  | ok tokens =>
      by_cases hne : tokens = []
      · subst hne
        exact ⟨_, .blank htokens⟩
      · by_cases hopen : 0 < s.depth + nestingDelta tokens
        · exact ⟨_, .continued htokens hne hopen⟩
        · have hclosed : s.depth + nestingDelta tokens ≤ 0 := by omega
          cases hprogram : (s.extend tokens).program with
          | error error => exact ⟨_, .refused htokens hne hclosed hprogram⟩
          | ok p =>
              cases hrun : Transcript.evaluate p ⟨[], out⟩ with
              | error fault t => exact ⟨_, .failed htokens hne hclosed hprogram hrun⟩
              | ok u t => exact ⟨_, .accepted htokens hne hclosed hprogram hrun⟩

/-- **Entering a line**: what it gives is listed. -/
theorem submit_eq_iff {result : EStateM.Result Error (Session × σ) Prompt} :
    submit text (s, out) = result ↔ Submitted s text out result := by
  constructor
  · rintro rfl
    obtain ⟨result, h⟩ := exists_submitted s text out
    rwa [h.eq]
  · exact Submitted.eq

theorem submitted (s : Session) (text : String) (out : σ) :
    Submitted s text out (submit text (s, out)) := submit_eq_iff.mp rfl

/-- Entering a line does not change the options. -/
theorem Submitted.options_eq {result : EStateM.Result Error (Session × σ) Prompt}
    (h : Submitted s text out result) : result.state.1.options = s.options := by
  cases h <;> rfl

end Session

/-! ## entering lines -/

/-- A line to be entered, and the sink for what is printed then. -/
structure Entry where
  text : String
  {σ : Type}
  [sink : Sink σ]
  out : σ

attribute [instance] Entry.sink

namespace Entry

/-- What entering the line gives. -/
def result (x : Entry) (s : Session) : EStateM.Result Error (Session × x.σ) Prompt :=
  Session.submit x.text (s, x.out)

/-- What is seen of entering the line: a prompt or an error, and the sink after it. -/
def answer (x : Entry) (s : Session) : EStateM.Result Error x.σ Prompt :=
  (x.result s).mapState Prod.snd

/-- The session after the line. -/
def next (x : Entry) (s : Session) : Session := (x.result s).state.1

/-- What is seen of a line, with the session after it, is what entering it gives. -/
theorem submitted_answer (x : Entry) (s : Session) :
    Session.Submitted s x.text x.out ((x.answer s).mapState fun out => (x.next s, out)) := by
  have hresult : (x.answer s).mapState (fun out => (x.next s, out)) = x.result s := by
    unfold answer next
    cases x.result s <;> rfl
  rw [hresult]
  exact Session.submitted s x.text x.out

theorem submitted_of_answer_ok {x : Entry} {s : Session} {prompt : Prompt} {out : x.σ}
    (h : x.answer s = .ok prompt out) :
    Session.Submitted s x.text x.out (.ok prompt (x.next s, out)) := by
  have hsubmitted := x.submitted_answer s
  rwa [h] at hsubmitted

theorem submitted_of_answer_error {x : Entry} {s : Session} {error : Error} {out : x.σ}
    (h : x.answer s = .error error out) :
    Session.Submitted s x.text x.out (.error error (x.next s, out)) := by
  have hsubmitted := x.submitted_answer s
  rwa [h] at hsubmitted

end Entry

/-- The session after lines that are entered one after another. -/
def Session.after (s : Session) (entries : List Entry) : Session :=
  entries.foldl (fun s x => x.next s) s

theorem Session.after_append (s : Session) (xs ys : List Entry) :
    s.after (xs ++ ys) = (s.after xs).after ys := List.foldl_append

theorem Session.after_singleton (s : Session) (x : Entry) : s.after [x] = x.next s := rfl

end LineScript
