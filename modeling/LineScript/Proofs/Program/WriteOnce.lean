import LineScript.Proofs.Program.Faults
import LineScript.Proofs.Program.Grammar
import Mathlib

/-!
# LineScript.Proofs.Program.WriteOnce

A name is assigned once.  Reading keeps the names assigned so far, in the middle of
a recursion that may stop at any line, and in a reader that is used again.  What
holds of one assignment is carried through everything that is read in sequence: the
names grow by new ones that the lines assign, and a name is refused only after a line
that assigns it, or if it was assigned before the first line.

* `WritesOnce.bind` — two parts that write once do so when one is read after the
  other;
* `WritesOnce.program` — a program writes once;
* `write_once` — what is read and what is refused, for one text and for many.
-/

namespace LineScript

/-! ## the names that lines assign -/

/-- The name that a line assigns, if it starts as an assignment. -/
def SourceLine.target? (line : SourceLine) : Option String :=
  match line.tokens with
  | .word name :: .operator .assign :: _ => some name
  | _ => none

/-- The names that lines assign, in order. -/
def targets (lines : List SourceLine) : List String := lines.filterMap SourceLine.target?

theorem targets_append (first second : List SourceLine) :
    targets (first ++ second) = targets first ++ targets second := List.filterMap_append

theorem mem_targets_iff {lines : List SourceLine} {name : String} :
    name ∈ targets lines ↔ ∃ line ∈ lines, line.target? = some name := List.mem_filterMap

/-- The names grow by new ones, each of them allowed and added once. -/
structure Grows (names allowed added after : List String) : Prop where
  after_eq : after = added ++ names
  nodup : added.Nodup
  fresh : ∀ name ∈ added, name ∉ names
  allowed : added ⊆ allowed

namespace Grows

variable {names between after first second added more : List String}

theorem refl (names allowed : List String) : Grows names allowed [] names :=
  ⟨rfl, .nil, by simp, by simp⟩

theorem mono (h : Grows names first added after) (hsub : first ⊆ second) :
    Grows names second added after :=
  ⟨h.after_eq, h.nodup, h.fresh, List.Subset.trans h.allowed hsub⟩

theorem trans (h : Grows names first added between) (h' : Grows between second more after) :
    Grows names (first ++ second) (more ++ added) after := by
  obtain ⟨rfl, hnodup, hfresh, hallowed⟩ := h
  obtain ⟨rfl, hnodup', hfresh', hallowed'⟩ := h'
  refine ⟨by simp, ?_, ?_, ?_⟩
  · refine List.nodup_append.mpr ⟨hnodup', hnodup, ?_⟩
    rintro name hmore _ hadded rfl
    exact hfresh' name hmore (List.mem_append_left names hadded)
  · intro name hmem
    rcases List.mem_append.mp hmem with hmore | hadded
    · exact fun h => hfresh' name hmore (List.mem_append_right added h)
    · exact hfresh name hadded
  · intro name hmem
    rcases List.mem_append.mp hmem with hmore | hadded
    · exact List.mem_append_right first (hallowed' hmore)
    · exact List.mem_append_left second (hallowed hadded)

theorem subset (h : Grows names first added after) : names ⊆ after := by
  rw [h.after_eq]
  exact List.subset_append_right added names

/-- Nothing else becomes assigned. -/
theorem mem_or_target {lines : List SourceLine} {name : String}
    (h : Grows names (targets lines) added after) (hname : name ∈ after) :
    name ∈ names ∨ ∃ line ∈ lines, line.target? = some name := by
  rw [h.after_eq] at hname
  rcases List.mem_append.mp hname with hadded | hold
  · exact .inr (mem_targets_iff.mp (h.allowed hadded))
  · exact .inl hold

end Grows

/-! ## the line to blame -/

/-- A fault is on one of the lines.  If it refuses a name, that line assigns the name,
and so does an earlier line, unless the name was assigned before. -/
def Blames (lines : List SourceLine) (names : List String) (fault : Fault ParseCause) : Prop :=
  ∃ before line rest, lines = before ++ line :: rest ∧ line.number = fault.line ∧
    ∀ name, fault.cause = .doubleAssignment name →
      line.target? = some name ∧ (name ∈ names ∨ name ∈ targets before)

namespace Blames

variable {first second : List SourceLine} {names : List String} {fault : Fault ParseCause}

theorem append_right (h : Blames first names fault) (second : List SourceLine) :
    Blames (first ++ second) names fault := by
  obtain ⟨before, line, rest, rfl, hnumber, hcause⟩ := h
  exact ⟨before, line, rest ++ second, by simp, hnumber, hcause⟩

/-- The names that came in between are those of lines before. -/
theorem append_left {added : List String} (h : Blames second (added ++ names) fault)
    (hadded : added ⊆ targets first) : Blames (first ++ second) names fault := by
  obtain ⟨before, line, rest, rfl, hnumber, hcause⟩ := h
  refine ⟨first ++ before, line, rest, by simp, hnumber, ?_⟩
  intro name hname
  obtain ⟨htarget, hearlier⟩ := hcause name hname
  have hfirst : name ∈ added → name ∈ targets first := @hadded name
  rw [targets_append]
  grind

end Blames

theorem Plain.blames {lines : List SourceLine} {fault : Fault ParseCause}
    (h : Plain (lines.map (·.number)) fault) (names : List String) : Blames lines names fault := by
  obtain ⟨hline, hcause⟩ := h
  obtain ⟨line, hmem, hnumber⟩ := List.mem_map.mp hline
  obtain ⟨before, rest, rfl⟩ := List.append_of_mem hmem
  exact ⟨before, line, rest, rfl, hnumber, fun name hname => absurd hname (hcause name)⟩

/-! ## reading in sequence -/

/-- Reading assigns new names only, which the lines assign, and a fault of it has a
line to blame. -/
structure WritesOnce {α : Type} (lines : List SourceLine) (x : Parse α) : Prop where
  grows : ∀ names, ∃ added, Grows names (targets lines) added (x names).state
  blames : ∀ names fault after, x names = .error fault after → Blames lines names fault

namespace WritesOnce

variable {α β : Type} {lines first second : List SourceLine}

theorem pure (a : α) : WritesOnce lines (Pure.pure a) where
  grows names := ⟨[], .refl names _⟩
  blames names fault after h := by contradiction

theorem ofExcept {x : Except (Fault ParseCause) α} (h : FailsOn (lines.map (·.number)) x) :
    WritesOnce lines (MonadExcept.ofExcept x) where
  grows names := by
    refine ⟨[], ?_⟩
    cases x <;> exact .refl names _
  blames names fault after hrun := by
    obtain ⟨hx, -⟩ := EStateM.ofExcept_eq_error_iff.mp hrun
    exact (h fault hx).blames names

theorem throw {fault : Fault ParseCause} (h : Plain (lines.map (·.number)) fault) :
    WritesOnce lines (throw fault : Parse α) where
  grows names := ⟨[], .refl names _⟩
  blames names fault after hrun := by
    cases hrun
    exact h.blames names

theorem bind {x : Parse α} {f : α → Parse β} (hx : WritesOnce first x)
    (hf : ∀ a, WritesOnce second (f a)) : WritesOnce (first ++ second) (x >>= f) where
  grows names := by
    obtain ⟨added, hadded⟩ := hx.grows names
    rw [targets_append]
    cases hrun : x names with
    | error fault after =>
        rw [hrun] at hadded
        rw [EStateM.bind_of_error hrun]
        exact ⟨added, hadded.mono (List.subset_append_left _ _)⟩
    | ok a between =>
        rw [hrun] at hadded
        rw [EStateM.bind_of_ok hrun]
        obtain ⟨more, hmore⟩ := (hf a).grows between
        exact ⟨more ++ added, hadded.trans hmore⟩
  blames names fault after hrun := by
    rcases EStateM.bind_eq_error_iff.mp hrun with hrun | ⟨a, between, ha, hrun⟩
    · exact (hx.blames names fault after hrun).append_right second
    · -- The names that the second part starts from are old ones and targets of the first.
      obtain ⟨added, hadded⟩ := hx.grows names
      rw [ha] at hadded
      have hblames := (hf a).blames between fault after hrun
      rw [show between = added ++ names from hadded.after_eq] at hblames
      exact hblames.append_left hadded.allowed

/-- Lines that are not read change nothing. -/
theorem mono {x : Parse α} (h : WritesOnce first x) (hinside : first <:+: lines) :
    WritesOnce lines x where
  grows names := by
    obtain ⟨added, hadded⟩ := h.grows names
    exact ⟨added, hadded.mono (List.filterMap_subset _ hinside.subset)⟩
  blames names fault after hrun := by
    obtain ⟨before, rest, rfl⟩ := hinside
    have hblames : Blames (first ++ rest) ([] ++ names) fault :=
      (h.blames names fault after hrun).append_right rest
    rw [List.append_assoc]
    exact hblames.append_left (by simp)

theorem bind_pure {x : Parse α} (h : WritesOnce lines x) (f : α → β) :
    WritesOnce lines (do return f (← x)) := by
  have hpure : ∀ a, WritesOnce [] (Pure.pure (f a) : Parse β) := fun a => pure (f a)
  have hbind := h.bind hpure
  rwa [List.append_nil] at hbind

/-! ## statements -/

theorem assignment (line : Nat) (name : String) (right : List Token) :
    WritesOnce [⟨line, .word name :: .operator .assign :: right⟩]
      (Parse.operation line (.word name :: .operator .assign :: right)) where
  grows names := by
    rw [Parse.operation_assign]
    by_cases hname : name ∈ names
    · rw [if_pos hname]
      exact ⟨[], .refl names _⟩
    · rw [if_neg hname]
      split
      · exact ⟨[], .refl names _⟩
      · split
        · exact ⟨[name], rfl, by simp, by simpa using hname, by simp [targets, SourceLine.target?]⟩
        · exact ⟨[], .refl names _⟩
  blames names fault after hrun := by
    rw [Parse.operation_assign] at hrun
    by_cases hname : name ∈ names
    · rw [if_pos hname] at hrun
      cases hrun
      refine ⟨[], _, [], rfl, rfl, ?_⟩
      rintro _ ⟨⟩
      exact ⟨rfl, .inl hname⟩
    · rw [if_neg hname] at hrun
      split at hrun
      · cases hrun
        exact Plain.blames ⟨by simp, by simp⟩ names
      · split at hrun
        · contradiction
        · next hvalue =>
          cases hrun
          refine Plain.blames ?_ names
          exact FailsOn.ofTokens right fault hvalue

theorem operation (line : Nat) (tokens : List Token) :
    WritesOnce [⟨line, tokens⟩] (Parse.operation line tokens) := by
  cases hs : Parse.splitAssign tokens with
  | none =>
      rw [Parse.operation, hs]
      exact ofExcept (FailsOn.ofTokens tokens)
  | some sides =>
      obtain ⟨left, right⟩ := sides
      by_cases hleft : ∃ name, left = [.word name]
      · obtain ⟨name, rfl⟩ := hleft
        obtain rfl := Parse.splitAssign_eq_some hs
        exact assignment line name right
      · rw [Parse.operation, hs]
        split
        · contradiction
        · next heq => cases heq; exact absurd ⟨_, rfl⟩ hleft
        · exact throw ⟨by simp, by simp⟩

mutual

/-- Reading a statement, whose first line decides what it is. -/
theorem statement (g : Group) :
    WritesOnce (g.lines.map (·.toSourceLine)) (Parse.statement g) := by
  have hhead : [g.head.toSourceLine] <:+: g.lines.map (·.toSourceLine) :=
    ⟨[], g.rest.map (·.toSourceLine), by simp [Group.lines]⟩
  rw [Parse.statement]
  split
  · next args _ =>
    have hprinted : WritesOnce [g.head.toSourceLine]
        (MonadExcept.ofExcept (Parse.printed g.head.number args)) :=
      ofExcept (FailsOn.printed args)
    exact (hprinted.mono hhead).bind_pure _
  · next args _ => exact branch g.head.toSourceLine args g.rest
  · next args _ =>
    have hheader : WritesOnce [g.head.toSourceLine]
        (MonadExcept.ofExcept (Parse.loopHeader g.head.number args)) :=
      ofExcept (FailsOn.loopHeader args)
    exact hheader.bind fun (name, range) => (block g.rest).bind_pure _
  · exact throw ⟨by simp [Group.lines], by simp⟩
  · exact throw ⟨by simp [Group.lines], by simp⟩
  · next name op rest htokens =>
    rw [← htokens]
    exact (operation g.head.number g.head.tokens).mono hhead
  · exact throw ⟨by simp [Group.lines], by simp⟩
termination_by (g.size, 0)
decreasing_by all_goals (apply Prod.Lex.left; simp [Group.size])

theorem statements : (groups : List Group) →
    WritesOnce ((groups.flatMap Group.lines).map (·.toSourceLine)) (Parse.statements groups)
  | [] => by
      rw [Parse.statements]
      exact pure []
  | g :: groups => by
      rw [Parse.statements, List.flatMap_cons, List.map_append]
      exact (statement g).bind fun first => (statements groups).bind_pure _
termination_by groups => (Group.sizes groups, 1)
decreasing_by
  · rw [Group.sizes]
    rcases Nat.eq_zero_or_pos (Group.sizes groups) with h | h
    · rw [h]; exact Prod.Lex.right _ (by decide)
    · exact Prod.Lex.left _ _ (by omega)
  · apply Prod.Lex.left
    simp [Group.sizes, Group.size]

theorem block (lines : List NestedLine) :
    WritesOnce (lines.map (·.toSourceLine)) (Parse.block lines) := by
  rw [Parse.block]
  split
  · next fault hbody =>
    refine throw ?_
    rw [List.map_map]
    exact FailsOn.branchBody lines fault hbody
  · next body hbody =>
    have hfront : body <+: lines.map (·.toSourceLine) := by
      rw [Parse.eq_takeWhile_of_branchBody hbody]
      exact (List.takeWhile_prefix _).map _
    split
    · next fault hgroups =>
      exact (throw (FailsOn.groupLines body fault hgroups)).mono hfront.isInfix
    · next groups hgroups =>
      have hle : Group.sizes groups ≤ lines.length :=
        length_groupLines hgroups ▸ Parse.length_branchBody hbody
      have hread := statements groups
      rw [flatMap_lines_groupLines hgroups] at hread
      exact hread.mono hfront.isInfix
termination_by (lines.length, 2)
decreasing_by
  rcases Nat.lt_or_eq_of_le hle with h | h
  · exact Prod.Lex.left _ _ h
  · rw [h]; exact Prod.Lex.right _ (by decide)

/-- Reading an `if`, the head of which may be an `else` that is followed by it. -/
theorem branch (head : SourceLine) (args : List Token) (lines : List NestedLine) :
    WritesOnce (head :: lines.map (·.toSourceLine)) (Parse.branch head.number args lines) := by
  have hcondition : WritesOnce [head]
      (MonadExcept.ofExcept (Parse.controlling .ifTrue head.number args)) :=
    ofExcept (FailsOn.controlling .ifTrue args)
  cases hsplit : Parse.splitElse lines with
  | none =>
      rw [Parse.branch_of_none hsplit]
      exact hcondition.bind fun condition => (block lines).bind_pure _
  | some parts =>
      obtain ⟨before, divider, after⟩ := parts
      have hlines := Parse.splitElse_eq_some hsplit
      rw [Parse.branch_of_some hsplit, hlines, List.map_append]
      refine hcondition.bind fun condition => (block before).bind fun body => ?_
      -- A further `if` is on the line of its `else`, which is then its head.
      split
      · exact ((block after).bind_pure _).mono (List.suffix_cons _ _).isInfix
      · next more _ => exact (branch divider.toSourceLine more after).bind_pure _
      · exact throw ⟨by simp, by simp⟩
termination_by (lines.length, 3)
decreasing_by
  · exact Prod.Lex.right _ (by decide)
  · exact Prod.Lex.left _ _ (Parse.length_lt_of_splitElse hsplit).1
  · exact Prod.Lex.left _ _ (Parse.length_lt_of_splitElse hsplit).2
  · exact Prod.Lex.left _ _ (Parse.length_lt_of_splitElse hsplit).2

end

theorem program (lines : List SourceLine) : WritesOnce lines (Parse.program lines) := by
  cases hgroups : groupLines lines with
  | error fault =>
      rw [Parse.program, hgroups]
      exact throw (FailsOn.groupLines lines fault hgroups)
  | ok groups =>
      have hread := statements groups
      rw [flatMap_lines_groupLines hgroups] at hread
      rwa [Parse.program_of_groupLines hgroups]

end WritesOnce

/-! ## one text, and many -/

namespace Parse

/-- What a program that is read adds is what it assigns. -/
theorem grows_assigned {lines : List SourceLine} {names after : List String} {p : Program}
    (h : program lines names = .ok p after) :
    Grows names (targets lines) p.assigned.reverse after := by
  obtain ⟨groups, hgroups, hread⟩ := program_eq_ok_iff_groups.mp h
  obtain ⟨-, hafter, -⟩ := derives_of_statements groups (complete_of_groupLines hgroups) hread
  obtain ⟨added, hadded⟩ := (WritesOnce.program lines).grows names
  rw [h] at hadded
  have hadded_eq : added = p.assigned.reverse :=
    List.append_cancel_right (hadded.after_eq.symm.trans hafter)
  rwa [hadded_eq] at hadded

/-- Read texts one after another, each with the names that the ones before it left:
the programs of the texts that can be read, and the names at the end. -/
def programs (names : List String) : List (List SourceLine) → List Program × List String
  | [] => ([], names)
  | lines :: texts =>
    match program lines names with
    | .ok p after =>
      let (read, last) := programs after texts
      (p :: read, last)
    | .error _ after => programs after texts

/-- What texts add is what those assign that can be read, and what the others assign
before they fail. -/
theorem grows_programs (names : List String) (texts : List (List SourceLine)) :
    ∃ added, Grows names (targets texts.flatten) added (programs names texts).2 ∧
      List.Sublist (Program.assigned (programs names texts).1.flatten).reverse added := by
  induction texts generalizing names with
  | nil => exact ⟨[], .refl names _, List.Sublist.refl []⟩
  | cons lines texts ih =>
      rw [programs, List.flatten_cons, targets_append]
      split
      · next p between hread =>
        obtain ⟨more, hmore, hsub⟩ := ih between
        refine ⟨more ++ p.assigned.reverse, (grows_assigned hread).trans hmore, ?_⟩
        rw [List.flatten_cons, Program.assigned_append, List.reverse_append]
        exact hsub.append_right _
      · next fault between hread =>
        obtain ⟨added, hadded⟩ := (WritesOnce.program lines).grows names
        rw [hread] at hadded
        obtain ⟨more, hmore, hsub⟩ := ih between
        exact ⟨more ++ added, hadded.trans hmore, hsub.trans (List.sublist_append_left more added)⟩

end Parse

/-- **Write once**: a text that is read assigns new names, each of them once, and
nothing else becomes assigned.  A text that fails keeps the names before it and adds
only some that its lines assign, and a name is refused only on a line that assigns it,
after another that does or because it was assigned before.  So the texts that one
reader reads never assign a name twice, whatever failed between them. -/
theorem write_once (names : List String) :
    (∀ lines,
      match Parse.program lines names with
      | .ok p after =>
        p.assigned.Nodup ∧ (∀ name ∈ p.assigned, name ∉ names) ∧
          ∀ name, name ∈ after ↔ name ∈ names ∨ name ∈ p.assigned
      | .error fault after =>
        (∀ name ∈ names, name ∈ after) ∧
          (∀ name ∈ after, name ∈ names ∨ ∃ line ∈ lines, line.target? = some name) ∧
          ∀ name, fault.cause = .doubleAssignment name →
            ∃ before line rest, lines = before ++ line :: rest ∧ line.number = fault.line ∧
              line.target? = some name ∧
              (name ∈ names ∨ ∃ earlier ∈ before, earlier.target? = some name)) ∧
    ∀ texts,
      let (programs, after) := Parse.programs names texts
      let assigned := Program.assigned programs.flatten
      assigned.Nodup ∧ (∀ name ∈ assigned, name ∉ names) ∧
        (∀ name, name ∈ names ∨ name ∈ assigned → name ∈ after) ∧
        ∀ name ∈ after, name ∈ names ∨ ∃ line ∈ texts.flatten, line.target? = some name := by
  refine ⟨fun lines => ?_, fun texts => ?_⟩
  · split
    · next p after hread =>
      obtain ⟨rfl, hnodup, hfresh, -⟩ := Parse.grows_assigned hread
      exact ⟨List.nodup_reverse.mp hnodup, by simpa using hfresh, by simp [or_comm]⟩
    · next fault after hread =>
      obtain ⟨added, hadded⟩ := (WritesOnce.program lines).grows names
      rw [hread] at hadded
      obtain ⟨before, line, rest, hlines, hnumber, hcause⟩ :=
        (WritesOnce.program lines).blames names fault after hread
      refine ⟨hadded.subset, fun name => hadded.mem_or_target, ?_⟩
      intro name hname
      obtain ⟨htarget, hearlier⟩ := hcause name hname
      rw [mem_targets_iff] at hearlier
      exact ⟨before, line, rest, hlines, hnumber, htarget, hearlier⟩
  · obtain ⟨added, hadded, hsub⟩ := Parse.grows_programs names texts
    have hassigned : ∀ name ∈ Program.assigned (Parse.programs names texts).1.flatten,
        name ∈ added :=
      fun name hname => hsub.subset (List.mem_reverse.mpr hname)
    refine ⟨List.nodup_reverse.mp (hadded.nodup.sublist hsub), ?_, ?_, ?_⟩
    · intro name hname
      exact hadded.fresh name (hassigned name hname)
    · rintro name (hname | hname)
      · exact hadded.subset hname
      · rw [hadded.after_eq]
        exact List.mem_append_left names (hassigned name hname)
    · exact fun name => hadded.mem_or_target

/-- A name that a block assigned stays refused, although the text of the block failed. -/
theorem write_once_failed_block :
    let one : List Token := [.literal (.int 1)]
    let lines : List SourceLine := [⟨2, [.keyword .ifTrue, .literal (.bool true)]⟩,
      ⟨3, .word "y" :: .operator .assign :: one⟩, ⟨4, .word "x" :: .operator .assign :: one⟩,
      ⟨5, [.keyword .endBlock]⟩]
    Parse.program lines ["x"] = .error ⟨.doubleAssignment "x", 4⟩ ["y", "x"] ∧
      ∃ before line rest, lines = before ++ line :: rest ∧ line.number = 4 ∧
        line.target? = some "x" ∧
        ("x" ∈ ["x"] ∨ ∃ earlier ∈ before, earlier.target? = some "x") := by
  intro one lines
  have hread : Parse.program lines ["x"] = .error ⟨.doubleAssignment "x", 4⟩ ["y", "x"] := by cbv
  have hresult := (write_once ["x"]).1 lines
  rw [hread] at hresult
  exact ⟨hread, hresult.2.2 "x" rfl⟩

end LineScript
