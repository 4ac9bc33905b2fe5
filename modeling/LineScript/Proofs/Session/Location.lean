import LineScript.Proofs.Program.Location
import LineScript.Proofs.Session.Batch
import LineScript.Proofs.Token.Comment

/-!
# LineScript.Proofs.Session.Location

Errors point at what was written.  The error of a text that is run as a whole is on
one of its lines that has tokens.  The error of a line that is entered is on a line of
the statement it belongs to, although all statements before it are run again.

* `line_mem_of_runSource` — a text whose lines have tokens fails on one of them;
* `Session.Sound.line_mem_of_submit` — a line that is entered fails on a line of its
  statement;
* `error_on_written_line` — for every text, and in every session.
-/

namespace LineScript

/-! ## lines that say something -/

theorem tokenizeLine_of_inert {text : String} (h : Token.Inert text.toList) (number : Nat) :
    tokenizeLine text number = .ok [] := by
  rw [tokenizeLine, Token.scanLine_inert h]
  rfl

theorem line_of_tokenizeLine {text : String} {number : Nat} {fault : Fault LexCause}
    (h : tokenizeLine text number = .error fault) : fault.line = number := by
  obtain ⟨cause, -, rfl⟩ := Except.mapError_eq_error_iff.mp h
  rfl

/-- When lines are numbered from `first` on, the line with the given number is neither
blank nor a comment. -/
def SpeaksAt (first : Nat) (texts : List String) (number : Nat) : Prop :=
  ∃ i text, texts[i]? = some text ∧ number = first + i ∧ ¬ Token.Inert text.toList

namespace SpeaksAt

variable {first number : Nat} {text : String} {texts : List String}

theorem head (h : ¬ Token.Inert text.toList) : SpeaksAt first (text :: texts) first :=
  ⟨0, text, rfl, rfl, h⟩

theorem tail (h : SpeaksAt (first + 1) texts number) : SpeaksAt first (text :: texts) number := by
  obtain ⟨i, text', htext, rfl, hspeaks⟩ := h
  exact ⟨i + 1, text', by rwa [List.getElem?_cons_succ], by omega, hspeaks⟩

/-- A line that cannot be cut into tokens says something. -/
theorem of_tokenizeLines_error {fault : Fault LexCause}
    (h : tokenizeLines first texts = .error fault) : SpeaksAt first texts fault.line := by
  induction texts generalizing first with
  | nil => cases h
  | cons text texts ih =>
      rw [tokenizeLines] at h
      rcases Except.bind_eq_error_iff.mp h with htokens | ⟨tokens, -, h⟩
      · rw [line_of_tokenizeLine htokens]
        refine head fun hinert => ?_
        rw [tokenizeLine_of_inert hinert] at htokens
        contradiction
      · rcases Except.bind_eq_error_iff.mp h with hmore | ⟨more, -, h⟩
        · exact (ih hmore).tail
        · cases h

/-- A line that has tokens says something. -/
theorem of_tokenizeLines {lines : List SourceLine} (h : tokenizeLines first texts = .ok lines) :
    ∀ number ∈ lines.map SourceLine.number, SpeaksAt first texts number := by
  induction texts generalizing first lines with
  | nil =>
      cases h
      simp
  | cons text texts ih =>
      obtain ⟨tokens, more, htokens, hmore, rfl⟩ := tokenizeLines_cons_eq_ok_iff.mp h
      rw [List.map_append]
      refine List.forall_mem_append.mpr ⟨?_, fun number hnumber => (ih hmore number hnumber).tail⟩
      by_cases hne : tokens = []
      · rw [hne, numbered_nil]
        simp
      · rw [numbered_of_ne_nil hne, List.map_singleton, List.forall_mem_singleton]
        refine head fun hinert => hne ?_
        rw [tokenizeLine_of_inert hinert] at htokens
        exact (Except.ok.inj htokens).symm

end SpeaksAt

/-! ## running a text -/

section

variable {σ : Type} [Sink σ] {options : Options} {source : String} {error : Error}

/-- A text whose lines have been cut into tokens fails on one of the lines that have
some. -/
theorem line_mem_of_compile {lines : List SourceLine} (hlines : tokenize source = .ok lines)
    (h : compile options source = .error error) : error.line ∈ lines.map SourceLine.number := by
  have htokens := Except.mapError_eq_ok_iff (f := Error.lex).mpr hlines
  rw [compile, Except.bind_of_ok htokens] at h
  rcases Except.bind_eq_error_iff.mp h with hread | ⟨p, hread, h⟩
  · obtain ⟨fault, hparse, rfl⟩ := Except.mapError_eq_error_iff.mp hread
    exact line_mem_of_parse hparse
  · have hderives := derives_of_parse (Except.mapError_eq_ok_iff.mp hread)
    rcases Except.bind_eq_error_iff.mp h with hvalid | ⟨_, -, h⟩
    · obtain ⟨-, fault, hcheck, rfl⟩ := Options.exists_of_validate_eq_error hvalid
      exact hderives.line_mem_of_check hcheck
    · cases h

theorem line_mem_of_runSource {lines : List SourceLine} {out after : σ}
    (hlines : tokenize source = .ok lines)
    (h : runSource options source out = .error error after) :
    error.line ∈ lines.map SourceLine.number := by
  unfold runSource at h
  split at h
  · next hcompile =>
    cases h
    exact line_mem_of_compile hlines hcompile
  · next p hcompile =>
    obtain ⟨lines', hlines', hread, -⟩ := compile_eq_ok_iff.mp hcompile
    obtain rfl : lines = lines' := Except.ok.inj (hlines.symm.trans hlines')
    split at h
    · contradiction
    · next fault t hrun =>
      cases h
      exact (derives_of_parse hread).line_mem_of_raisedIn (Transcript.raisedIn_of_evaluate hrun)

end

/-! ## entering a line -/

namespace Session

variable {σ : Type} [Sink σ] {options : Options} {s : Session} {steps : List Step} {text : String}
  {out : σ} {error : Error} {after : Session × σ}

/-- A line that is entered fails on its own line or on one before it of the same
statement. -/
theorem Sound.line_mem_of_submit (hs : s.Sound steps) (hout : Sink.Unlimited out)
    (h : Session.submit text (s, out) = .error error after) :
    error.line ∈ s.pending.map SourceLine.number ++ [s.nextLine] := by
  have hpending (tokens : List Token) : (s.extend tokens).pending.map SourceLine.number =
      s.pending.map SourceLine.number ++ [s.nextLine] := List.map_append
  cases submit_eq_iff.mp h with
  | unread hunread =>
      have hline : Error.line (.lex _) = s.nextLine := line_of_tokenizeLine hunread
      rw [hline]
      simp
  | @refused tokens _ _ _ hclosed hprogram =>
      rw [← hpending tokens]
      rcases hs.exists_of_program_error hclosed hprogram with
        ⟨fault, names, hread, rfl⟩ | ⟨e, names, fault, hread, -, hfault, rfl⟩
      · exact Parse.line_mem_of_program hread
      · exact ((program_eq_ok_iff hs.nodup_assigned).mp hread).1.line_mem_of_check hfault
  | @failed tokens _ _ _ _ _ hclosed hprogram hrun =>
      obtain ⟨e, names, hread, -, rfl⟩ := hs.exists_of_program_ok hclosed hprogram
      obtain ⟨texts, houtcome, -⟩ := hs.outcome_of_failed hout hrun
      have hnodes : e.nodes ⊆ Expr.nodesAll [e] := List.subset_append_left _ _
      have hraised := (Expr.raisedIn_of_outcome houtcome).mono hnodes
      rw [← hpending tokens]
      exact ((program_eq_ok_iff hs.nodup_assigned).mp hread).1.line_mem_of_raisedIn hraised

/-- The lines being entered come from the first of them on. -/
theorem WellFormed.firstPending_le (h : s.WellFormed) :
    ∀ number ∈ s.pending.map SourceLine.number ++ [s.nextLine], s.firstPending ≤ number := by
  have hincreasing := h.increasing
  rw [List.map_append] at hincreasing
  have hordered := (List.pairwise_append.mp hincreasing).2.1
  have hbelow : ∀ l ∈ s.pending, l.number < s.nextLine :=
    fun l hl => h.below l (List.mem_append_right _ hl)
  unfold firstPending
  cases hpending : s.pending with
  | nil => simp
  | cons first rest =>
      rw [hpending] at hordered hbelow
      have hfirst := (List.pairwise_cons.mp hordered).1
      intro number hnumber
      rcases List.mem_append.mp hnumber with hnumber | hnumber
      · rcases List.mem_cons.mp hnumber with rfl | hrest
        · exact Nat.le_refl _
        · exact Nat.le_of_lt (hfirst number hrest)
      · obtain rfl := List.mem_singleton.mp hnumber
        exact Nat.le_of_lt (hbelow first List.mem_cons_self)

theorem WellFormed.le_nextLine (h : s.WellFormed) :
    ∀ number ∈ s.pending.map SourceLine.number ++ [s.nextLine], number ≤ s.nextLine := by
  intro number hnumber
  rcases List.mem_append.mp hnumber with hnumber | hnumber
  · obtain ⟨l, hl, rfl⟩ := List.mem_map.mp hnumber
    exact Nat.le_of_lt (h.below l (List.mem_append_right _ hl))
  · obtain rfl := List.mem_singleton.mp hnumber
    exact Nat.le_refl _

end Session

/-- **Every error is on a line that was written.**  If a text fails as a whole, with
whatever sink, the error is on one of its lines, and this line is neither blank nor a
comment.  If a line fails in a session, on a sink without a limit, the error is not before
the first line of the statement being entered and not after the line itself. -/
theorem error_on_written_line (options : Options) :
    (∀ {σ : Type} [Sink σ] (source : String) (out after : σ) (error : Error),
      runSource options source out = .error error after →
      ∃ i text, (Text.lines source)[i]? = some text ∧ error.line = i + 1 ∧
        ¬ Token.Inert text.toList) ∧
    ∀ {σ : Type} [Sink σ] (s : Session), Session.Reachable options s →
      ∀ (text : String) (out : σ) (error : Error) (after : Session × σ), Sink.Unlimited out →
        Session.submit text (s, out) = .error error after →
        s.firstPending ≤ error.line ∧ error.line ≤ s.nextLine := by
  constructor
  · intro σ _ source out after error h
    have hspeaks : SpeaksAt 1 (Text.lines source) error.line := by
      cases hlines : tokenize source with
      | ok lines => exact SpeaksAt.of_tokenizeLines hlines _ (line_mem_of_runSource hlines h)
      | error fault =>
          have hcompile : compile options source = .error (.lex fault) := by
            rw [compile, hlines]
            rfl
          simp only [runSource, hcompile] at h
          cases h
          exact SpeaksAt.of_tokenizeLines_error hlines
    obtain ⟨i, text, htext, hline, hinert⟩ := hspeaks
    exact ⟨i, text, htext, by omega, hinert⟩
  · intro σ _ s hs text out error after hout h
    obtain ⟨steps, hsound⟩ := hs.exists_sound
    have hmem := hsound.line_mem_of_submit hout h
    exact ⟨hsound.wellFormed.firstPending_le _ hmem, hsound.wellFormed.le_nextLine _ hmem⟩

/-- A text that divides by zero, inside a block and below a comment. -/
def dividing : String := "x := 1\n// below\nif true\nprint x / 0\nend"

/-- The session after the lines of an open block that divides by zero. -/
def dividingSession : Session :=
  let first := (Session.submit "x := 1" (({} : Session), ({} : Log))).state.1
  let second := (Session.submit "if true" (first, ({} : Log))).state.1
  (Session.submit "print x / 0" (second, ({} : Log))).state.1

/-- The division is found on its own line, although the session finds it when the block
is closed. -/
theorem error_on_written_line_dividing :
    runSource {} dividing ({} : Log) = .error (.eval ⟨.divisionByZero, 4⟩) {} ∧
    (∃ i text, (Text.lines dividing)[i]? = some text ∧ 4 = i + 1 ∧ ¬ Token.Inert text.toList) ∧
    ∃ after, Session.submit "end" (dividingSession, ({} : Log)) =
        .error (.eval ⟨.divisionByZero, 3⟩) after ∧
      dividingSession.firstPending = 2 ∧ dividingSession.nextLine = 4 ∧
      dividingSession.firstPending ≤ 3 ∧ 3 ≤ dividingSession.nextLine := by
  obtain ⟨hsource, hsession⟩ := error_on_written_line {}
  have hrun : runSource {} dividing ({} : Log) = .error (.eval ⟨.divisionByZero, 4⟩) {} := by cbv
  have hreach : Session.Reachable {} dividingSession :=
    .submit (.submit (.submit .new "x := 1" ({} : Log)) "if true" ({} : Log)) "print x / 0" ({} : Log)
  have hsubmit : Session.submit "end" (dividingSession, ({} : Log)) =
      .error (.eval ⟨.divisionByZero, 3⟩) ({
        history := [.assign 1 "x" (.int 1)]
        committed := [⟨1, [.word "x", .operator .assign, .literal (.int 1)]⟩]
        nextLine := 5 }, {}) := by cbv
  exact ⟨hrun, hsource _ _ _ _ hrun, _, hsubmit, by cbv, by cbv,
    hsession _ hreach _ _ _ _ (Log.unlimited {}) hsubmit⟩

end LineScript
