import LineScript.Proofs.Program.Prefix
import LineScript.Session

/-!
# LineScript.Proofs.Session.Pending

The statement being entered.  As long as a session collects lines, the first of
them opens a block that the others have not closed; the line that closes it, or a
single line that opens nothing, makes one group of them or cannot be grouped.

* `Pending.enter` — a line that leaves blocks open is collected;
* `Pending.groupLines_enter` — a line that leaves none open completes a group;
* `Pending.program_enter` — which is read as one statement, numbered by its first
  line;
* `Pending.eq_nil_of_groupLines` — lines that can be grouped leave nothing to
  collect.
-/

namespace LineScript

/-- The lines of a statement that is not complete: none, or those of a block in
which `depth` blocks are open. -/
inductive Pending : List SourceLine → Int → Prop where
  | none : Pending [] 0
  | block {first : SourceLine} {k : Keyword} {nested : List NestedLine} {depth : Nat}
      (h : first.keyword? = some k) (hk : k.opensBlock = true) (hs : Adds 1 nested (depth + 1)) :
      Pending (first :: nested.map (·.toSourceLine)) (depth + 1)

theorem isUnknownConstruction_of_keyword? {line : SourceLine} {k : Keyword}
    (h : line.keyword? = some k) : isUnknownConstruction line.tokens = false := by
  obtain ⟨rest, htokens⟩ := exists_tokens_of_keyword? h
  rw [htokens]
  rfl

theorem cons_map_append (first line : SourceLine) (level : Nat) (nested : List NestedLine) :
    first :: nested.map (·.toSourceLine) ++ [line] =
      first :: (nested ++ [(⟨line, level⟩ : NestedLine)]).map (·.toSourceLine) := by
  simp

/-- A line that opens more than it closes starts with a keyword that opens a
block. -/
theorem exists_opensBlock_of_nestingDelta {line : SourceLine} (h : 0 < nestingDelta line.tokens) :
    ∃ k, line.keyword? = some k ∧ k.opensBlock = true ∧ nestingDelta line.tokens = 1 := by
  rw [nestingDelta_eq] at h ⊢
  cases hk : line.keyword? with
  | none => simp [hk] at h
  | some k =>
      rw [hk] at h
      refine ⟨k, rfl, ?_⟩
      cases k <;> simp_all [Keyword.opensBlock]

/-- A single line is never found to leave a block open. -/
theorem cause_ne_of_place {depth : Nat} {line : SourceLine} {fault : Fault ParseCause}
    (h : place depth line = .error fault) : fault.cause ≠ .unclosedBlock := by
  unfold place at h
  split at h
  · cases h; simp
  · split at h
    · split at h
      · cases h; simp
      · contradiction
    · split at h
      · cases h; simp
      · contradiction
    · contradiction
    · contradiction

namespace Pending

variable {lines : List SourceLine} {depth : Int} {line : SourceLine}

/-- A line that leaves blocks open is collected. -/
theorem enter (h : Pending lines depth) (hopen : 0 < depth + nestingDelta line.tokens) :
    Pending (lines ++ [line]) (depth + nestingDelta line.tokens) := by
  cases h with
  | none =>
      rw [Int.zero_add] at hopen ⊢
      obtain ⟨k, hk, hopens, hdelta⟩ := exists_opensBlock_of_nestingDelta hopen
      rw [hdelta]
      exact Pending.block hk hopens (.nil 1)
  | @block first k nested d hk hopens hs =>
      obtain ⟨level, after, hplace⟩ := place_inside d line
      have hplaced := placed_of_place hplace
      have hafter := hplaced.after_eq
      have hall := hs.trans (.single hplaced)
      obtain ⟨a, rfl⟩ : ∃ a, after = a + 1 := ⟨after - 1, by omega⟩
      have hdepth : (d : Int) + 1 + nestingDelta line.tokens = a + 1 := by omega
      rw [cons_map_append first line level nested, hdepth]
      exact .block hk hopens hall

/-- A line that leaves no block open completes one group, or it cannot be placed,
whatever follows. -/
theorem groupLines_enter (h : Pending lines depth)
    (hclosed : depth + nestingDelta line.tokens ≤ 0) :
    (∃ g, groupLines (lines ++ [line]) = .ok [g]) ∨
      ∃ fault, fault.cause ≠ .unclosedBlock ∧
        ∀ more, groupLines (lines ++ [line] ++ more) = .error fault := by
  cases h with
  | none =>
      cases hplace : place 0 line with
      | error fault =>
          exact .inr ⟨fault, cause_ne_of_place hplace, groupLines_cons_error hplace⟩
      | ok r =>
          obtain ⟨level, after⟩ := r
          have hafter := (placed_of_place hplace).after_eq
          obtain rfl : after = 0 := by omega
          have hgroup := groupLines_cons hplace []
          exact .inl ⟨_, hgroup⟩
  | @block first k nested d hk hopens hs =>
      obtain ⟨level, after, hplace⟩ := place_inside d line
      have hplaced := placed_of_place hplace
      have hafter := hplaced.after_eq
      obtain rfl : after = 0 := by omega
      have hall := hs.trans (.single hplaced)
      have hgroup := groupLines_block hk hopens (isUnknownConstruction_of_keyword? hk) hall []
      rw [List.append_nil] at hgroup
      rw [cons_map_append first line level nested, hgroup]
      exact .inl ⟨_, rfl⟩

/-- A completed statement is read as one tree, which has the number of its first
line. -/
theorem program_enter (h : Pending lines depth)
    (hclosed : depth + nestingDelta line.tokens ≤ 0) {names after : List String} {p : Program}
    (hnames : names.Nodup) (hread : Parse.program (lines ++ [line]) names = .ok p after) :
    ∃ e, p = [e] ∧ (lines ++ [line]).head?.map SourceLine.number = some e.line := by
  rcases h.groupLines_enter hclosed with ⟨g, hg⟩ | ⟨fault, -, hfault⟩
  · obtain ⟨e, rfl⟩ := Parse.program_single hg hread
    obtain ⟨hderives, -⟩ := (program_eq_ok_iff hnames).mp hread
    exact ⟨e, rfl, hderives.statement_of_singleton.head?_number⟩
  · obtain ⟨groups, hgroups, -⟩ := Parse.program_eq_ok_iff_groups.mp hread
    have hnone := hfault []
    rw [List.append_nil, hgroups] at hnone
    contradiction

/-- If more lines follow and all are read, the completed statement is read. -/
theorem program_enter_of_append (h : Pending lines depth)
    (hclosed : depth + nestingDelta line.tokens ≤ 0) {more : List SourceLine}
    {names after : List String} {p : Program}
    (hread : Parse.program (lines ++ [line] ++ more) names = .ok p after) :
    ∃ e rest between, Parse.program (lines ++ [line]) names = .ok [e] between ∧ p = e :: rest := by
  obtain ⟨groups, hgroups, hstatements⟩ := Parse.program_eq_ok_iff_groups.mp hread
  rcases h.groupLines_enter hclosed with ⟨g, hg⟩ | ⟨fault, -, hfault⟩
  · rw [groupLines_append hg] at hgroups
    cases hmore : groupLines more with
    | error fault => simp [hmore, Except.map] at hgroups
    | ok others =>
        rw [hmore] at hgroups
        obtain rfl := Except.ok.inj hgroups
        obtain ⟨e, rest, between, he, -, rfl⟩ := Parse.statements_cons_eq_ok_iff.mp hstatements
        have hnone : Parse.statements [] between = .ok [] between := by
          rw [Parse.statements]
          rfl
        have hsingle : Parse.statements [g] names = .ok [e] between :=
          Parse.statements_cons_eq_ok_iff.mpr ⟨e, [], between, he, hnone, rfl⟩
        exact ⟨e, rest, between, Parse.program_eq_ok_iff_groups.mpr ⟨[g], hg, hsingle⟩, rfl⟩
  · rw [hfault more] at hgroups
    contradiction

/-- Lines that can be grouped leave no block open. -/
theorem eq_nil_of_groupLines (h : Pending lines depth) {groups : List Group}
    (hgroups : groupLines lines = .ok groups) : lines = [] := by
  cases h with
  | none => rfl
  | @block first k nested d hk hopens hs =>
      have hplace := place_of_placed (.opens 0 hk hopens)
        fun _ => isUnknownConstruction_of_keyword? hk
      have hrest := hs first.number []
      rw [List.append_nil] at hrest
      rw [groupLines_cons hplace, hrest] at hgroups
      simp [groupFrom, Except.map] at hgroups

end Pending

end LineScript
