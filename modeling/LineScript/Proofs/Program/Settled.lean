import LineScript.Proofs.Block.Regrouping
import LineScript.Proofs.Program.Faults
import LineScript.Proofs.Program.Grammar

/-!
# LineScript.Proofs.Program.Settled

Blocks are settled by grouping.  Once the lines of a program are grouped, every block
of it is closed, however deep it stands: the lines of a branch are grouped again, but
none of them is found to leave a block open or to close one that is not there.

* `nested_of_groupLines` — what grouping says about each group;
* `failsAt_statements` — where reading can fail: in a group that it comes to, for the
  tokens of a line, for the line that closes a branch, or for the groups of a branch;
* `settled_statements` — reading groups never fails for a block left open, or closed
  without being open.
-/

namespace LineScript

open Parse

/-! ## groups -/

/-- A group of lines that were placed: its first line closes no block, and if it opens
one, the others are met inside it up to its end. -/
structure Group.Nested (g : Group) : Prop extends g.Complete where
  starts : g.head.keyword? ≠ some .endBlock
  within : ∀ k, g.head.keyword? = some k → k.opensBlock = true → Within 1 g.rest 0

theorem nested_of_groupFrom {depth opener : Nat} {lines : List SourceLine}
    {rest : List NestedLine} {groups : List Group}
    (h : groupFrom depth opener lines = .ok (rest, groups)) :
    ∀ g ∈ groups, g.head.keyword? ≠ some .endBlock ∧
      ∀ k, g.head.keyword? = some k → k.opensBlock = true → Within 1 g.rest 0 := by
  induction lines generalizing depth opener rest groups with
  | nil =>
      unfold groupFrom at h
      split at h
      · cases h; simp
      · contradiction
  | cons line lines ih =>
      obtain ⟨level, after, rest', groups', hplaced, hrest, hfirst, hinside⟩ := groupFrom_cons_ok h
      by_cases h0 : depth = 0
      · obtain ⟨-, rfl⟩ := hfirst h0
        subst h0
        refine List.forall_mem_cons.mpr ⟨?_, ih hrest⟩
        cases hplaced with
        | opens _ hk hopen =>
            refine ⟨?_, fun _ _ _ => within_of_groupFrom hrest⟩
            rintro hend
            obtain rfl := Option.some.inj (hk.symm.trans hend)
            contradiction
        | plain _ hk =>
            refine ⟨?_, fun k hk' hopen => ?_⟩
            · intro hend
              have heq := hk _ hend
              contradiction
            · obtain rfl := hk k hk'
              contradiction
      · obtain ⟨-, rfl⟩ := hinside h0
        exact ih hrest

/-- What grouping says about each group. -/
theorem nested_of_groupLines {lines : List SourceLine} {groups : List Group}
    (h : groupLines lines = .ok groups) : ∀ g ∈ groups, g.Nested := by
  intro g hg
  obtain ⟨hstarts, hwithin⟩ := nested_of_groupFrom (groupFrom_of_groupLines h) g hg
  exact ⟨complete_of_groupLines h g hg, hstarts, hwithin⟩

/-! ## faults -/

/-- A fault that is not about a block left open, or closed without being open. -/
def Settled (fault : Fault ParseCause) : Prop :=
  fault.cause ≠ .unclosedBlock ∧ fault.cause ≠ .unexpectedKeyword .endBlock

/-- A fault that is about the tokens of one line, and not about blocks. -/
def Inline (fault : Fault ParseCause) : Prop :=
  fault.cause ≠ .unclosedBlock ∧ ∀ k, fault.cause ≠ .unexpectedKeyword k

theorem Inline.settled {fault : Fault ParseCause} (h : Inline fault) : Settled fault :=
  ⟨h.1, h.2 _⟩

/-! ## the parts of a line -/

theorem inline_ofTokens (line : Nat) (tokens : List Token) :
    (Expr.ofTokens line tokens).FailsWith Inline := by
  fun_induction Expr.ofTokens line tokens with
  | case1 token =>
      cases token with
      | literal value => exact .ok _
      | word name => exact .ok _
      | operator op => exact .error (by simp [Inline])
      | keyword k => exact .error (by simp [Inline])
  | case2 => exact .error (by simp [Inline])
  | case3 rest _ _ ih => exact .bind ih fun _ => .ok _
  | case4 => exact .error (by simp [Inline])
  | case5 => exact .error (by simp [Inline])
  | case6 tokens _ s _ _ _ _ _ ihleft ihright =>
      refine .bind ihleft fun left => ?_
      split
      · exact .error (by simp [Inline])
      · exact .bind ihright fun _ => .ok _

theorem inline_printed (line : Nat) (args : List Token) :
    (printed line args).FailsWith Inline := by
  unfold printed
  split
  · exact inline_ofTokens line args
  · split
    · exact .error (by simp [Inline])
    · exact .ok _
    · exact .ok _
    · exact .error (by simp [Inline])

theorem inline_controlling (k : Keyword) (line : Nat) (args : List Token) :
    (controlling k line args).FailsWith Inline := by
  unfold controlling
  split
  · exact .error (by simp [Inline])
  · exact inline_ofTokens line args

theorem inline_loopHeader (line : Nat) (args : List Token) :
    (loopHeader line args).FailsWith Inline := by
  refine .bind (inline_controlling .forEach line args) fun header => ?_
  split
  · split
    · exact .ok _
    · exact .error (by simp [Inline])
  · split
    · exact .ok _
    · exact .error (by simp [Inline])

theorem inline_assignment (line : Nat) (name : String) (right : List Token) :
    EStateM.FailsWith Inline (operation line (.word name :: .operator .assign :: right)) := by
  intro names fault after h
  rw [operation_assign] at h
  split at h
  · cases h
    simp [Inline]
  · split at h
    · cases h
      simp [Inline]
    · split at h
      · contradiction
      · next hvalue =>
        cases h
        exact inline_ofTokens line right fault hvalue

theorem inline_operation (line : Nat) (tokens : List Token) :
    EStateM.FailsWith Inline (operation line tokens) := by
  cases hs : splitAssign tokens with
  | none =>
      rw [operation, hs]
      exact .ofExcept (inline_ofTokens line tokens)
  | some sides =>
      obtain ⟨left, right⟩ := sides
      by_cases hleft : ∃ name, left = [.word name]
      · obtain ⟨name, rfl⟩ := hleft
        obtain rfl := splitAssign_eq_some hs
        exact inline_assignment line name right
      · rw [operation, hs]
        split
        · contradiction
        · next heq => cases heq; exact absurd ⟨_, rfl⟩ hleft
        · exact .throw (by simp [Inline])

/-! ## the parts of a block -/

theorem settled_checkClosing (line : NestedLine) : (checkClosing line).FailsWith Settled := by
  unfold checkClosing
  split
  · exact .ok _
  · exact .error (by simp [Settled])
  · next k _ hend _ =>
    refine .error ⟨by simp, ?_⟩
    rintro ⟨⟩
    exact hend rfl
  · exact .error (by simp [Settled])

/-- An `if` is divided on its own level. -/
theorem level_of_splitElse {lines before after : List NestedLine} {divider : NestedLine}
    (h : splitElse lines = some (before, divider, after)) : divider.level = 0 := by
  induction lines generalizing before with
  | nil => simp [splitElse] at h
  | cons line lines ih =>
      unfold splitElse at h
      split at h
      · next hline =>
        cases h
        exact hline.1
      · obtain ⟨⟨b, d, a⟩, hs, heq⟩ := Option.map_eq_some_iff.mp h
        cases heq
        exact ih hs

/-- Lines of which those before the first on the level of the block around them are met
inside that block alone. -/
def Bounded (lines : List NestedLine) : Prop :=
  ∃ inner rest, lines = inner ++ rest ∧ (∀ l ∈ inner, l.level ≠ 0) ∧
    (∀ l ∈ rest.head?, l.level = 0) ∧ Within 1 inner 1

/-- The lines of a closed block are bounded. -/
theorem Closed.bounded {lines : List NestedLine} (h : Closed lines) (hw : Within 1 lines 0) :
    Bounded lines := by
  obtain ⟨inner, line, rest, rfl, hinner, hline, -⟩ := h.exists_append
  exact ⟨inner, line :: rest, rfl, hinner, by simpa using hline, (hw.of_append_cons hline).1⟩

/-- The lines of a bounded branch are grouped again. -/
theorem Bounded.inline_groupLines {lines : List NestedLine} {body : List SourceLine}
    (h : Bounded lines) (hbody : branchBody lines = .ok body) :
    (groupLines body).FailsWith Inline := by
  obtain ⟨inner, rest, rfl, hinner, hrest, hw⟩ := h
  rw [eq_takeWhile_of_branchBody hbody, takeWhile_append_of_level hinner hrest]
  intro fault hfault
  have hcause := hw.groupLines_error hinner hfault
  simp [Inline, hcause]

theorem settled_branchBody (lines : List NestedLine) : (branchBody lines).FailsWith Settled := by
  unfold branchBody
  split
  · exact .bind (settled_checkClosing _) fun _ => .ok _
  · exact .bind (.ok ()) fun _ => .ok _

/-! ## what reading comes to -/

namespace Parse

/-- The lines that an `if` reads its branches from, one after the other, when the given
lines are below it. -/
inductive Branch : List NestedLine → List NestedLine → Prop where
  | only {lines : List NestedLine} (h : splitElse lines = none) : Branch lines lines
  | first {lines before after : List NestedLine} {divider : NestedLine}
      (h : splitElse lines = some (before, divider, after)) : Branch lines before
  | otherwise {lines before after : List NestedLine} {divider : NestedLine}
      (h : splitElse lines = some (before, divider, after)) (htail : divider.tokens.tail = []) :
      Branch lines after
  | chained {lines before after part : List NestedLine} {divider : NestedLine} {more : List Token}
      (h : splitElse lines = some (before, divider, after))
      (htail : divider.tokens.tail = .keyword .ifTrue :: more) (hpart : Branch after part) :
      Branch lines part

end Parse

namespace Group

/-- The lines that a group reads its branches from. -/
inductive Branch (g : Group) : List NestedLine → Prop where
  | ifTrue {part : List NestedLine} (hk : g.head.keyword? = some .ifTrue)
      (hpart : Parse.Branch g.rest part) : Branch g part
  | forEach (hk : g.head.keyword? = some .forEach) : Branch g g.rest

/-- The groups that reading a group comes to: the group itself, and what reading the
groups of its branches comes to. -/
inductive Reaches : Group → Group → Prop where
  | refl (g : Group) : Reaches g g
  | inside {g first last : Group} {part : List NestedLine} {body : List SourceLine}
      {groups : List Group} (hpart : g.Branch part) (hbody : branchBody part = .ok body)
      (hgroups : groupLines body = .ok groups) (hmem : first ∈ groups) (h : Reaches first last) :
      Reaches g last

/-- What can be at fault in a group, apart from the groups of its branches: the tokens of a
line, the way it starts, the line that closes a branch, or the lines of a branch. -/
inductive AtFault (g : Group) (fault : Fault ParseCause) : Prop where
  | inline (h : Inline fault)
  | start {k : Keyword} (hk : k = .orElse ∨ k = .endBlock) (h : g.head.keyword? = some k)
      (hcause : fault.cause = .unexpectedKeyword k)
  | closing {part : List NestedLine} (hpart : g.Branch part) (h : branchBody part = .error fault)
  | grouping {part : List NestedLine} {body : List SourceLine} (hpart : g.Branch part)
      (hbody : branchBody part = .ok body) (h : groupLines body = .error fault)

/-- Something is at fault in a group that reading comes to. -/
def FailsAt (g : Group) (fault : Fault ParseCause) : Prop :=
  ∃ inner, g.Reaches inner ∧ inner.AtFault fault

theorem FailsAt.inline {g : Group} {fault : Fault ParseCause} (h : Inline fault) :
    g.FailsAt fault := ⟨g, .refl g, .inline h⟩

end Group

/-- What can be at fault in a branch. -/
inductive BranchFails (part : List NestedLine) (fault : Fault ParseCause) : Prop where
  | closing (h : branchBody part = .error fault)
  | grouping {body : List SourceLine} (hbody : branchBody part = .ok body)
      (h : groupLines body = .error fault)
  | inside {body : List SourceLine} {groups : List Group} {g : Group}
      (hbody : branchBody part = .ok body) (hgroups : groupLines body = .ok groups)
      (hmem : g ∈ groups) (h : g.FailsAt fault)

/-- What is at fault in a branch of a group is at fault in a group that reading comes
to. -/
theorem BranchFails.failsAt {g : Group} {part : List NestedLine} {fault : Fault ParseCause}
    (h : BranchFails part fault) (hpart : g.Branch part) : g.FailsAt fault := by
  cases h with
  | closing h => exact ⟨g, .refl g, .closing hpart h⟩
  | grouping hbody h => exact ⟨g, .refl g, .grouping hpart hbody h⟩
  | inside hbody hgroups hmem h =>
      obtain ⟨inner, hreaches, hfault⟩ := h
      exact ⟨inner, .inside hpart hbody hgroups hmem hreaches, hfault⟩

/-! ## where reading fails -/

mutual

theorem failsAt_statement (g : Group) : EStateM.FailsWith g.FailsAt (statement g) := by
  have hinline : ∀ fault, Inline fault → g.FailsAt fault := fun _ => .inline
  rw [statement]
  split
  · exact .bind ((EStateM.FailsWith.ofExcept (inline_printed _ _)).mono hinline) fun _ => .pure _
  · next args hhead =>
    have hk : g.head.keyword? = some .ifTrue := by rw [SourceLine.keyword?, hhead]; rfl
    refine (failsAt_branch g.head.number args g.rest).mono fun fault hfault => ?_
    rcases hfault with hfault | ⟨part, hpart, hfault⟩
    · exact .inline hfault
    · exact hfault.failsAt (.ifTrue hk hpart)
  · next args hhead =>
    have hk : g.head.keyword? = some .forEach := by rw [SourceLine.keyword?, hhead]; rfl
    refine .bind ((EStateM.FailsWith.ofExcept (inline_loopHeader _ _)).mono hinline) fun header => ?_
    refine .bind ((failsAt_block g.rest).mono fun fault hfault => ?_) fun _ => .pure _
    exact hfault.failsAt (.forEach hk)
  · exact .throw (hinline _ (by simp [Inline]))
  · next k _ hprint hif hfor hwhile hhead =>
    have hk : k = .orElse ∨ k = .endBlock := by cases k <;> simp_all
    exact .throw ⟨g, .refl g, .start hk (by rw [SourceLine.keyword?, hhead]; rfl) rfl⟩
  · exact (inline_operation _ _).mono hinline
  · exact .throw (hinline _ (by simp [Inline]))
termination_by (g.size, 0)
decreasing_by all_goals (apply Prod.Lex.left; simp [Group.size])

/-- Reading groups fails in a group that it comes to. -/
theorem failsAt_statements : (groups : List Group) →
    EStateM.FailsWith (fun fault => ∃ g ∈ groups, g.FailsAt fault) (statements groups)
  | [] => by
      rw [statements]
      exact .pure _
  | g :: groups => by
      rw [statements]
      refine .bind ((failsAt_statement g).mono fun fault h => ⟨g, List.mem_cons_self, h⟩) fun _ => ?_
      refine .bind ((failsAt_statements groups).mono fun fault h => ?_) fun _ => .pure _
      obtain ⟨g', hmem, h⟩ := h
      exact ⟨g', List.mem_cons_of_mem g hmem, h⟩
termination_by groups => (Group.sizes groups, 1)
decreasing_by
  · rw [Group.sizes]
    rcases Nat.eq_zero_or_pos (Group.sizes groups) with h | h
    · rw [h]; exact Prod.Lex.right _ (by decide)
    · exact Prod.Lex.left _ _ (by omega)
  · apply Prod.Lex.left
    simp [Group.sizes, Group.size]

theorem failsAt_block (lines : List NestedLine) :
    EStateM.FailsWith (BranchFails lines) (block lines) := by
  rw [block]
  split
  · next fault hbody => exact .throw (.closing hbody)
  · next body hbody =>
    split
    · next fault hgroups => exact .throw (.grouping hbody hgroups)
    · next groups hgroups =>
      have hle : Group.sizes groups ≤ lines.length :=
        length_groupLines hgroups ▸ length_branchBody hbody
      refine (failsAt_statements groups).mono fun fault h => ?_
      obtain ⟨g, hmem, h⟩ := h
      exact .inside hbody hgroups hmem h
termination_by (lines.length, 2)
decreasing_by
  rcases Nat.lt_or_eq_of_le hle with h | h
  · exact Prod.Lex.left _ _ h
  · rw [h]; exact Prod.Lex.right _ (by decide)

theorem failsAt_branch (line : Nat) (args : List Token) (lines : List NestedLine) :
    EStateM.FailsWith (fun fault => Inline fault ∨ ∃ part, Branch lines part ∧
      BranchFails part fault) (branch line args lines) := by
  have hcondition : EStateM.FailsWith
      (fun fault => Inline fault ∨ ∃ part, Branch lines part ∧ BranchFails part fault)
      (MonadExcept.ofExcept (controlling .ifTrue line args) : Parse Expr) :=
    (EStateM.FailsWith.ofExcept (inline_controlling .ifTrue line args)).mono fun _ => .inl
  cases hsplit : splitElse lines with
  | none =>
      rw [branch_of_none hsplit]
      refine .bind hcondition fun _ => .bind ((failsAt_block lines).mono ?_) fun _ => .pure _
      exact fun fault h => .inr ⟨lines, .only hsplit, h⟩
  | some parts =>
      obtain ⟨first, divider, second⟩ := parts
      rw [branch_of_some hsplit]
      refine .bind hcondition fun _ => .bind ((failsAt_block first).mono ?_) fun _ => ?_
      · exact fun fault h => .inr ⟨first, .first hsplit, h⟩
      · split
        · next htail =>
          refine .bind ((failsAt_block second).mono ?_) fun _ => .pure _
          exact fun fault h => .inr ⟨second, .otherwise hsplit htail, h⟩
        · next more htail =>
          refine .bind ((failsAt_branch divider.number more second).mono ?_) fun _ => .pure _
          rintro fault (h | ⟨part, hpart, h⟩)
          · exact .inl h
          · exact .inr ⟨part, .chained hsplit htail hpart, h⟩
        · exact .throw (.inl (by simp [Inline]))
termination_by (lines.length, 3)
decreasing_by
  · exact Prod.Lex.right _ (by decide)
  · exact Prod.Lex.left _ _ (length_lt_of_splitElse hsplit).1
  · exact Prod.Lex.left _ _ (length_lt_of_splitElse hsplit).2
  · exact Prod.Lex.left _ _ (length_lt_of_splitElse hsplit).2

end

/-! ## branches of nested groups -/

/-- The branches of an `if` are bounded. -/
theorem Parse.Branch.bounded {lines part : List NestedLine} (h : Branch lines part)
    (hclosed : Closed lines) (hw : Within 1 lines 0) : Bounded part := by
  induction h with
  | only _ => exact hclosed.bounded hw
  | first h =>
      obtain ⟨hfirst, -, -⟩ := closed_of_splitElse hclosed h
      rw [splitElse_eq_some h] at hw
      have hwfirst := (hw.of_append_cons (level_of_splitElse h)).1
      exact ⟨_, [], by simp, hfirst, by simp, hwfirst⟩
  | otherwise h _ =>
      obtain ⟨-, hdivider, hsecond⟩ := closed_of_splitElse hclosed h
      rw [splitElse_eq_some h] at hw
      exact hsecond.bounded ((hw.of_append_cons (level_of_splitElse h)).2 hdivider)
  | chained h _ _ ih =>
      obtain ⟨-, hdivider, hsecond⟩ := closed_of_splitElse hclosed h
      rw [splitElse_eq_some h] at hw
      exact ih hsecond ((hw.of_append_cons (level_of_splitElse h)).2 hdivider)

namespace Group

variable {g : Group}

theorem Branch.bounded {part : List NestedLine} (h : g.Branch part) (hg : g.Nested) :
    Bounded part := by
  cases h with
  | ifTrue hk hpart => exact hpart.bounded (hg.closed _ hk rfl) (hg.within _ hk rfl)
  | forEach hk => exact (hg.closed _ hk rfl).bounded (hg.within _ hk rfl)

/-- What holds of all groups of lines holds of all groups that reading one comes to. -/
theorem Reaches.of_groupLines {P : Group → Prop} {inner : Group} (h : g.Reaches inner) (hg : P g)
    (hP : ∀ {lines groups}, groupLines lines = .ok groups → ∀ g ∈ groups, P g) : P inner := by
  induction h with
  | refl => exact hg
  | inside _ _ hgroups hmem _ ih => exact ih (hP hgroups _ hmem)

/-- What is at fault in a nested group. -/
theorem AtFault.settled {fault : Fault ParseCause} (h : g.AtFault fault) (hg : g.Nested) :
    Settled fault := by
  cases h with
  | inline h => exact h.settled
  | closing _ h => exact settled_branchBody _ fault h
  | grouping hpart hbody h => exact ((hpart.bounded hg).inline_groupLines hbody fault h).settled
  | start hk h hcause =>
      rcases hk with rfl | rfl
      · simp [Settled, hcause]
      · exact absurd h hg.starts

end Group

/-- Reading nested groups never fails for a block left open, or closed without being
open. -/
theorem settled_statements (groups : List Group) (h : ∀ g ∈ groups, g.Nested) :
    EStateM.FailsWith Settled (statements groups) := by
  refine (failsAt_statements groups).mono fun fault hfault => ?_
  obtain ⟨g, hmem, inner, hreaches, hinner⟩ := hfault
  exact hinner.settled (hreaches.of_groupLines (h g hmem) nested_of_groupLines)

end LineScript
