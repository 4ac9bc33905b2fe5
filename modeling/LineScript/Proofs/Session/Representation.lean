import LineScript.Proofs.Eval.Simulation
import LineScript.Proofs.Program.Settled
import LineScript.Proofs.Session.Dialogue
import LineScript.Proofs.Session.Pending
import Mathlib

/-!
# LineScript.Proofs.Session.Representation

What the parts of a session say about each other, whatever was entered and whatever
the sinks refused.  A session counts open blocks by adding up what each line opens
and closes, and grouping counts them line by line; both agree, so a session waits
exactly while the lines being entered are one block that is not closed.

* `WellFormed.submit` — one line keeps a session well formed;
* `WellFormed.after` — so do many;
* `Session.representation` — what this says about every session.
-/

namespace LineScript

/-! ## the lines being entered -/

namespace Pending

variable {lines : List SourceLine} {depth : Int} {line : SourceLine}

theorem depth_nonneg (h : Pending lines depth) : 0 ≤ depth := by
  cases h with
  | none => exact Int.le_refl 0
  | block => omega

theorem depth_eq_zero_iff (h : Pending lines depth) : depth = 0 ↔ lines = [] := by
  cases h with
  | none => simp
  | block =>
      simp only [reduceCtorEq, iff_false]
      omega

/-- Grouping finds that the first line opens a block which is not closed. -/
theorem groupLines_eq (h : Pending lines depth) :
    ∀ first ∈ lines.head?, groupLines lines = .error ⟨.unclosedBlock, first.number⟩ := by
  cases h with
  | none => simp
  | @block first k nested d hk hopens hs =>
      rintro _ ⟨⟩
      have hplace := place_of_placed (.opens 0 hk hopens)
        fun _ => isUnknownConstruction_of_keyword? hk
      have hrest := hs first.number []
      rw [List.append_nil] at hrest
      rw [groupLines_cons hplace, hrest]
      simp [groupFrom, Except.map]

/-- The lines of a completed statement make at most one group. -/
theorem length_groups_le (h : Pending lines depth)
    (hclosed : depth + nestingDelta line.tokens ≤ 0) {groups : List Group}
    (hgroups : groupLines (lines ++ [line]) = .ok groups) : groups.length ≤ 1 := by
  rcases h.groupLines_enter hclosed with ⟨g, hg⟩ | ⟨fault, -, hfault⟩
  · obtain rfl : [g] = groups := Except.ok.inj (hg.symm.trans hgroups)
    exact Nat.le_refl 1
  · have hnone := hfault []
    rw [List.append_nil, hgroups] at hnone
    contradiction

/-- A line that leaves no block open is never found to leave one open. -/
theorem groupLines_enter_ne (h : Pending lines depth)
    (hclosed : depth + nestingDelta line.tokens ≤ 0) {fault : Fault ParseCause}
    (hfault : groupLines (lines ++ [line]) = .error fault) : fault.cause ≠ .unclosedBlock := by
  rcases h.groupLines_enter hclosed with ⟨g, hg⟩ | ⟨fault', hcause, hfault'⟩
  · rw [hfault] at hg
    contradiction
  · have heq := hfault' []
    rw [List.append_nil, hfault] at heq
    cases heq
    exact hcause

end Pending

namespace Session

/-! ## the invariant -/

/-- What holds of a session at every moment: the lines being entered are none or an open
block, with the given number of open blocks; lines are numbered in the order they were
entered; and the accepted ones can be read. -/
structure WellFormed (s : Session) : Prop where
  pending : Pending s.pending s.depth
  depth_eq : s.depth = (s.pending.map fun l => nestingDelta l.tokens).sum
  increasing : ((s.committed ++ s.pending).map SourceLine.number).Pairwise (· < ·)
  below : ∀ l ∈ s.committed ++ s.pending, l.number < s.nextLine
  reads : ∃ p, parse s.committed = .ok p

theorem wellFormed_of_pending_eq_nil {s : Session} (hpending : s.pending = []) (hdepth : s.depth = 0)
    (increasing : (s.committed.map SourceLine.number).Pairwise (· < ·))
    (below : ∀ l ∈ s.committed, l.number < s.nextLine) (reads : ∃ p, parse s.committed = .ok p) :
    s.WellFormed where
  pending := by rw [hpending, hdepth]; exact .none
  depth_eq := by rw [hpending, hdepth]; rfl
  increasing := by rwa [hpending, List.append_nil]
  below := by rwa [hpending, List.append_nil]
  reads := reads

theorem wellFormed_new (options : Options) : WellFormed { options := options } :=
  wellFormed_of_pending_eq_nil rfl rfl (by simp) (by simp) ⟨[], parse_nil⟩

/-- A program that is ready to run comes from lines that are read. -/
theorem exists_parse_of_program {s : Session} {p : Program} (h : s.program = .ok p) :
    ∃ q, parse (s.committed ++ s.pending) = .ok q := by
  obtain ⟨q, hq, -⟩ := Except.bind_eq_ok_iff.mp h
  exact ⟨q, Except.mapError_eq_ok_iff.mp hq⟩

namespace WellFormed

variable {σ : Type} [Sink σ] {s : Session} {text : String} {out : σ}

/-- The next line gets a number above all others. -/
theorem increasing_extend (h : s.WellFormed) (tokens : List Token) :
    ((s.committed ++ (s.extend tokens).pending).map SourceLine.number).Pairwise (· < ·) := by
  have hpending : (s.extend tokens).pending = s.pending ++ [⟨s.nextLine, tokens⟩] := rfl
  rw [hpending, ← List.append_assoc, List.map_append, List.pairwise_append]
  refine ⟨h.increasing, by simp, ?_⟩
  intro n hn m hm
  obtain ⟨l, hl, rfl⟩ := List.mem_map.mp hn
  obtain rfl : m = s.nextLine := by simpa using hm
  exact h.below l hl

theorem below_extend (h : s.WellFormed) (tokens : List Token) :
    ∀ l ∈ s.committed ++ (s.extend tokens).pending, l.number < s.nextLine + 1 := by
  have hpending : (s.extend tokens).pending = s.pending ++ [⟨s.nextLine, tokens⟩] := rfl
  intro l hl
  rw [hpending, ← List.append_assoc] at hl
  rcases List.mem_append.mp hl with hl | hl
  · exact Nat.lt_succ_of_lt (h.below l hl)
  · obtain rfl := List.mem_singleton.mp hl
    exact Nat.lt_succ_self _

theorem advance (h : s.WellFormed) : s.advance.WellFormed where
  pending := h.pending
  depth_eq := h.depth_eq
  increasing := h.increasing
  below := fun l hl => Nat.lt_succ_of_lt (h.below l hl)
  reads := h.reads

theorem extend (h : s.WellFormed) {tokens : List Token}
    (hopen : 0 < s.depth + nestingDelta tokens) : (s.extend tokens).WellFormed where
  pending := h.pending.enter hopen
  depth_eq := by
    show s.depth + nestingDelta tokens =
      ((s.pending ++ [(⟨s.nextLine, tokens⟩ : SourceLine)]).map fun l => nestingDelta l.tokens).sum
    rw [List.map_append, List.sum_append, ← h.depth_eq]
    simp
  increasing := h.increasing_extend tokens
  below := h.below_extend tokens
  reads := h.reads

/-- A statement that is given up leaves the accepted ones. -/
theorem discard (h : s.WellFormed) (tokens : List Token) (history : History) :
    ({ s.extend tokens with history := history }.discard).WellFormed := by
  have hincreasing := h.increasing
  rw [List.map_append] at hincreasing
  refine wellFormed_of_pending_eq_nil rfl rfl (List.pairwise_append.mp hincreasing).1 ?_ h.reads
  intro l hl
  exact h.below_extend tokens l (List.mem_append_left _ hl)

/-- A statement that is accepted has been read after the others. -/
theorem commit (h : s.WellFormed) {tokens : List Token} {history : History}
    (hreads : ∃ p, parse (s.committed ++ (s.extend tokens).pending) = .ok p) :
    ({ s.extend tokens with history := history }.commit).WellFormed :=
  wellFormed_of_pending_eq_nil rfl rfl (h.increasing_extend tokens) (h.below_extend tokens) hreads

/-- The accepted lines stand before those being entered. -/
theorem committed_lt (h : s.WellFormed) : ∀ l ∈ s.committed, l.number < s.firstPending := by
  intro l hl
  unfold firstPending
  cases hpending : s.pending with
  | nil => exact h.below l (List.mem_append_left _ hl)
  | cons first rest =>
      have hincreasing := h.increasing
      rw [List.map_append, List.pairwise_append] at hincreasing
      have hfirst : first.number ∈ s.pending.map SourceLine.number := by simp [hpending]
      exact hincreasing.2.2 _ (List.mem_map_of_mem hl) _ hfirst

/-- **One line keeps a session well formed**, whatever comes of it. -/
theorem submit (h : s.WellFormed) {result : EStateM.Result Error (Session × σ) Prompt}
    (hresult : Submitted s text out result) : result.state.1.WellFormed := by
  cases hresult with
  | unread => exact h.discard [] s.history
  | blank => exact h.advance
  | continued _ _ hopen => exact h.extend hopen
  | @refused tokens => exact h.discard tokens s.history
  | @failed tokens _ _ t => exact h.discard tokens t.history
  | accepted _ _ _ hprogram => exact h.commit (exists_parse_of_program hprogram)

theorem next (h : s.WellFormed) (x : Entry) : (x.next s).WellFormed :=
  h.submit (submitted s x.text x.out)

/-- Lines keep a session well formed. -/
theorem after (h : s.WellFormed) (entries : List Entry) : (s.after entries).WellFormed := by
  induction entries generalizing s with
  | nil => exact h
  | cons x entries ih => exact ih (h.next x)

/-- The lines that are handed over to be read never leave a block open. -/
theorem parse_ne_unclosedBlock (h : s.WellFormed) {tokens : List Token}
    (hclosed : s.depth + nestingDelta tokens ≤ 0) {fault : Fault ParseCause}
    (hfault : parse (s.committed ++ (s.extend tokens).pending) = .error fault) :
    fault.cause ≠ .unclosedBlock := by
  obtain ⟨p, hp⟩ := h.reads
  rw [parse_append hp] at hfault
  split at hfault
  · contradiction
  · next fault' names hread =>
    cases hfault
    cases hgroups : groupLines (s.extend tokens).pending with
    | error fault' =>
        rw [Parse.program_of_groupLines_error hgroups] at hread
        cases hread
        exact h.pending.groupLines_enter_ne hclosed hgroups
    | ok groups =>
        rw [Parse.program_of_groupLines hgroups] at hread
        exact (settled_statements groups (nested_of_groupLines hgroups) _ _ _ hread).1

theorem error_ne_unclosedBlock (h : s.WellFormed) {error : Error} {after : Session × σ}
    (hresult : Submitted s text out (.error error after)) (line : Nat) :
    error ≠ .parse ⟨.unclosedBlock, line⟩ := by
  cases hresult with
  | unread => simp
  | refused _ _ hclosed hprogram =>
      rintro rfl
      rcases Except.bind_eq_error_iff.mp hprogram with hparse | ⟨p, hparse, hrest⟩
      · obtain ⟨fault, hfault, heq⟩ := Except.mapError_eq_error_iff.mp hparse
        cases heq
        exact h.parse_ne_unclosedBlock hclosed hfault rfl
      · rcases Except.bind_eq_error_iff.mp hrest with hcheck | ⟨_, -, hrest⟩
        · obtain ⟨-, _, -, heq⟩ := Options.exists_of_validate_eq_error hcheck
          contradiction
        · contradiction
  | failed => simp

end WellFormed

/-- A line that is entered without an error says what the session waits for. -/
theorem prompt_of_submitted {σ : Type} [Sink σ] {s s' : Session} {text : String} {out after : σ}
    {prompt : Prompt} (h : Submitted s text out (.ok prompt (s', after))) : s'.prompt = prompt := by
  cases h with
  | blank => rfl
  | continued => simp [Session.prompt, extend, enter]
  | accepted => rfl

/-- **What a session is**: after any lines, with any sinks, the number of open blocks is
what the lines being entered open and close, and it is zero exactly if there are none;
the lines are numbered in the order they were entered; the accepted ones can be read; and
those being entered are one block that is not closed.  So a line that is entered without
an error answers with what the session waits for, the lines that are handed over to be
read make at most one group, and no error says that a block is not closed. -/
theorem representation (options : Options) (entries : List Entry) :
    let s := Session.after { options := options } entries
    s.depth = (s.pending.map fun l => nestingDelta l.tokens).sum ∧ 0 ≤ s.depth ∧
    (s.depth = 0 ↔ s.pending = []) ∧
    ((s.committed ++ s.pending).map SourceLine.number).Pairwise (· < ·) ∧
    (∀ l ∈ s.committed ++ s.pending, l.number < s.nextLine) ∧
    (∃ p, parse s.committed = .ok p) ∧
    (∀ first ∈ s.pending.head?, groupLines s.pending = .error ⟨.unclosedBlock, first.number⟩) ∧
    ∀ x : Entry,
      (∀ prompt out, x.answer s = .ok prompt out → (x.next s).prompt = prompt) ∧
      (∀ tokens, tokenizeLine x.text s.nextLine = .ok tokens → tokens ≠ [] →
        s.depth + nestingDelta tokens ≤ 0 →
        ∀ groups, groupLines (s.pending ++ [⟨s.nextLine, tokens⟩]) = .ok groups →
          groups.length ≤ 1) ∧
      ∀ error out line, x.answer s = .error error out → error ≠ .parse ⟨.unclosedBlock, line⟩ := by
  intro s
  have h : s.WellFormed := (wellFormed_new options).after entries
  refine ⟨h.depth_eq, h.pending.depth_nonneg, h.pending.depth_eq_zero_iff, h.increasing, h.below,
    h.reads, h.pending.groupLines_eq, fun x => ⟨?_, ?_, ?_⟩⟩
  · intro prompt out hanswer
    exact prompt_of_submitted (Entry.submitted_of_answer_ok hanswer)
  · intro tokens _ _ hclosed groups hgroups
    exact h.pending.length_groups_le hclosed hgroups
  · intro error out line hanswer
    exact h.error_ne_unclosedBlock (Entry.submitted_of_answer_error hanswer) line

/-- A block that is being entered after a statement whose printing was refused. -/
def openBlock : List Entry :=
  [⟨"print 1", ({ limit := some 0 } : Buffer)⟩, ⟨"if true", ({} : Buffer)⟩,
    ⟨"// later", ({} : Buffer)⟩, ⟨"print 2", ({} : Buffer)⟩]

/-- The open block starts on the second line, and a bare `end` completes it. -/
theorem representation_openBlock :
    let s := Session.after {} openBlock
    s.depth = 1 ∧ s.pending.map SourceLine.number = [2, 4] ∧
    groupLines s.pending = .error ⟨.unclosedBlock, 2⟩ ∧
    (Entry.mk "end" ({} : Log)).answer s = .ok .statement ⟨["2\n"]⟩ ∧
    ((Entry.mk "end" ({} : Log)).next s).prompt = .statement := by
  obtain ⟨hdepth, -, -, -, -, -, hopen, henter⟩ := representation {} openBlock
  have hpending : (Session.after {} openBlock).pending =
      [⟨2, [.keyword .ifTrue, .literal (.bool true)]⟩,
        ⟨4, [.keyword .print, .literal (.int 2)]⟩] := by cbv
  have hanswer : (Entry.mk "end" ({} : Log)).answer (Session.after {} openBlock) =
      .ok .statement ⟨["2\n"]⟩ := by cbv
  rw [hpending] at hdepth
  refine ⟨hdepth, by rw [hpending]; rfl, ?_, hanswer, ?_⟩
  · exact hopen ⟨2, [.keyword .ifTrue, .literal (.bool true)]⟩ (by rw [hpending]; rfl)
  · exact (henter ⟨"end", ({} : Log)⟩).1 _ _ hanswer

end Session

end LineScript
