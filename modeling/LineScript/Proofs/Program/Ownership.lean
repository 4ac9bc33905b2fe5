import LineScript.Proofs.Block.Nesting
import LineScript.Proofs.Program.Settled
import Mathlib

/-!
# LineScript.Proofs.Program.Ownership

Which block a line belongs to.  A branch is cut out of a group by levels and grouped
from scratch, and this finds what the group around it has found: every line is one level
lower, and it starts, divides and closes the same blocks.  So grouping the lines of a
program settles its blocks once and for all.  The only lines that are still found not to
fit are an `else` in a loop, and an `else` after a plain one.

* `Group.Branch.regrouped` — the levels of a branch that is grouped again;
* `Group.Branch.closing` — the line that closes a branch;
* `blocks_settled` — what is left for reading to find.
-/

namespace LineScript

open Parse

/-! ## lines inside blocks, told by sums -/

/-- Lines that close what they open, and nothing that was open before them. -/
def Balanced (lines : List SourceLine) : Prop :=
  nesting lines = 0 ∧ ∀ first, first <+: lines → 0 ≤ nesting first

namespace Within

variable {depth between after : Nat} {lines first second : List NestedLine}

theorem append (h : Within depth first between) (h' : Within between second after) :
    Within depth (first ++ second) after := by
  induction h with
  | nil => exact h'
  | cons hline _ ih => exact .cons hline (ih h')

theorem nesting_eq (h : Within depth lines after) :
    depth + nesting (lines.map (·.toSourceLine)) = after := by
  induction h with
  | nil => simp
  | cons hline _ ih =>
      rw [List.map_cons, nesting_cons, ← Int.add_assoc, ← hline.after_eq, ih]

theorem levelled (h : Within depth lines after) : Levelled depth lines := by
  induction h with
  | nil => exact levelled_nil _
  | cons hline _ ih =>
      rw [levelled_cons_iff, ← hline.after_eq]
      exact ⟨hline.level_eq, ih⟩

/-- The block around the lines stays open up to their end. -/
theorem one_le (h : Within depth lines after) (hafter : 1 ≤ after) {start : List SourceLine}
    (hstart : start <+: lines.map (·.toSourceLine)) : 1 ≤ depth + nesting start := by
  induction h generalizing start with
  | nil =>
      rw [List.prefix_nil.mp hstart]
      simpa using hafter
  | cons hline _ ih =>
      rcases List.prefix_cons_iff.mp hstart with rfl | ⟨more, rfl, hmore⟩
      · simp
      · rw [nesting_cons, ← Int.add_assoc, ← hline.after_eq]
        exact ih hafter hmore

theorem balanced (h : Within 1 lines 1) : Balanced (lines.map (·.toSourceLine)) := by
  have hsum := h.nesting_eq
  refine ⟨by omega, fun start hstart => ?_⟩
  have hle := h.one_le (Nat.le_refl 1) hstart
  omega

end Within

/-! ## one level lower -/

/-- A line one level higher. -/
def NestedLine.raised (line : NestedLine) : NestedLine := { line with level := line.level + 1 }

theorem levelAt_add_one (depth : Int) (line : SourceLine) :
    levelAt (depth + 1) line = levelAt depth line + 1 := by
  unfold levelAt
  split <;> omega

/-- With one block more around them, lines are one level higher. -/
theorem Levelled.eq_map_raised {depth : Int} {xs ys : List NestedLine}
    (hxs : Levelled (depth + 1) xs) (hys : Levelled depth ys)
    (h : xs.map (·.toSourceLine) = ys.map (·.toSourceLine)) : xs = ys.map NestedLine.raised := by
  induction ys generalizing depth xs with
  | nil => simpa using h
  | cons y ys ih =>
      obtain ⟨x, xs, rfl, hline, hlines⟩ := List.map_eq_cons_iff.mp h
      have hsource : x.toSourceLine = y.toSourceLine := hline
      obtain ⟨hx, hxs⟩ := levelled_cons_iff.mp hxs
      obtain ⟨hy, hys⟩ := levelled_cons_iff.mp hys
      have hlevel : x.level = y.level + 1 := by
        rw [hsource, levelAt_add_one] at hx
        omega
      have hraised : x = y.raised := by
        obtain ⟨source, level⟩ := x
        subst hsource hlevel
        rfl
      have hdepth : depth + 1 + nestingDelta x.tokens = depth + nestingDelta y.tokens + 1 := by
        rw [hsource]
        omega
      rw [hdepth] at hxs
      rw [hraised, ih hxs hys hlines]
      rfl

namespace Group.Branch

variable {g : Group} {part : List NestedLine}

/-- **A branch that is grouped again**: each line of it is one level below the one it has
in the group around it. -/
theorem regrouped (h : g.Branch part) (hg : g.Nested) {body : List SourceLine}
    {groups : List Group} (hbody : branchBody part = .ok body)
    (hgroups : groupLines body = .ok groups) :
    part.takeWhile (·.level ≠ 0) = (groups.flatMap Group.lines).map NestedLine.raised := by
  obtain ⟨inner, rest, rfl, hinner, hrest, hw⟩ := h.bounded hg
  have htake := takeWhile_append_of_level hinner hrest
  have hlevelled := levelled_of_groupFrom (groupFrom_of_groupLines hgroups)
  have hlines : inner.map (·.toSourceLine) =
      (groups.flatMap Group.lines).map (·.toSourceLine) := by
    rw [flatMap_lines_groupLines hgroups, eq_takeWhile_of_branchBody hbody, htake]
  rw [htake]
  exact Levelled.eq_map_raised (by simpa using hw.levelled) hlevelled hlines

end Group.Branch

/-! ## the line that closes a branch -/

theorem exists_of_branchBody_error {lines : List NestedLine} {fault : Fault ParseCause}
    (h : branchBody lines = .error fault) :
    ∃ closing, lines.find? (·.level = 0) = some closing ∧ checkClosing closing = .error fault := by
  unfold branchBody at h
  cases hfind : lines.find? (·.level = 0) with
  | none =>
      rw [hfind] at h
      contradiction
  | some closing =>
      rw [hfind] at h
      rcases Except.bind_eq_error_iff.mp h with h | ⟨_, _, h⟩
      · exact ⟨closing, rfl, h⟩
      · contradiction

/-- The first line of a closed block on its own level closes or divides it. -/
theorem Closed.of_find? {lines : List NestedLine} {closing : NestedLine} (h : Closed lines)
    (hfind : lines.find? (·.level = 0) = some closing) :
    ∃ inner rest, lines = inner ++ closing :: rest ∧ (∀ l ∈ inner, l.level ≠ 0) ∧
      closing.level = 0 ∧ (closing.keyword? = some .endBlock ∨ closing.keyword? = some .orElse) := by
  obtain ⟨inner, line, rest, rfl, hinner, hline, hrest⟩ := h.exists_append
  obtain rfl : line = closing :=
    Option.some.inj ((find?_append_of_level hinner hline).symm.trans hfind)
  refine ⟨inner, rest, rfl, hinner, hline, ?_⟩
  rcases hrest with ⟨hk, -⟩ | ⟨hk, -⟩
  · exact .inl hk
  · exact .inr hk

/-- Among the lines below an `if`, the given one comes after a plain `else` of that
`if`. -/
def AfterElse (lines : List NestedLine) (line : NestedLine) : Prop :=
  ∃ first plain second after, lines = first ++ plain :: (second ++ line :: after) ∧
    plain.tokens = [.keyword .orElse] ∧ Within 1 first 1 ∧ Within 1 (first ++ plain :: second) 1 ∧
    Within 1 second 1

/-- A line that divides the outermost block leaves it open. -/
theorem within_divider {divider : NestedLine} {lines : List NestedLine} {after : Nat}
    (hlevel : divider.level = 0) (hk : divider.keyword? = some .orElse)
    (h : Within 1 lines after) : Within 1 (divider :: lines) after := by
  have hplaced : Placed divider.toSourceLine 1 divider.level 1 := by
    rw [hlevel]
    exact .divides 0 hk
  exact .cons hplaced h

/-- A branch of an `if` is closed by an `end`, or it is met by an `else` after a plain
one. -/
theorem Parse.Branch.closing {lines part : List NestedLine} {closing : NestedLine}
    (h : Branch lines part) (hclosed : Closed lines) (hw : Within 1 lines 0)
    (hfind : part.find? (·.level = 0) = some closing) :
    closing.keyword? = some .endBlock ∨
      (closing.keyword? = some .orElse ∧ AfterElse lines closing) := by
  induction h with
  | @only lines h =>
      obtain ⟨inner, rest, rfl, hinner, hlevel, hk⟩ := hclosed.of_find? hfind
      rcases hk with hk | hk
      · exact .inl hk
      · rw [splitElse_divider hinner hlevel hk] at h
        contradiction
  | first h =>
      obtain ⟨hfirst, -, -⟩ := closed_of_splitElse hclosed h
      have hnone := hfirst closing (List.mem_of_find?_eq_some hfind)
      exact absurd (by simpa using List.find?_some hfind) hnone
  | @otherwise lines before after divider h htail =>
      obtain ⟨-, hdivider, hsecond⟩ := closed_of_splitElse hclosed h
      have hlevel := level_of_splitElse h
      have hlines := splitElse_eq_some h
      rw [hlines] at hw
      obtain ⟨hbefore, hafter⟩ := hw.of_append_cons hlevel
      obtain ⟨inner, rest, rfl, hinner, hclosing, hk⟩ := hsecond.of_find? hfind
      rcases hk with hk | hk
      · exact .inl hk
      · have hinside := ((hafter hdivider).of_append_cons hclosing).1
        have hplain : divider.tokens = [.keyword .orElse] := by
          obtain ⟨rest, htokens⟩ := exists_tokens_of_keyword? hdivider
          rw [htokens] at htail ⊢
          simpa using htail
        refine .inr ⟨hk, before, divider, inner, rest, hlines, hplain, hbefore, ?_, hinside⟩
        exact hbefore.append (within_divider hlevel hdivider hinside)
  | @chained lines before after part divider more h htail _ ih =>
      obtain ⟨-, hdivider, hsecond⟩ := closed_of_splitElse hclosed h
      have hlevel := level_of_splitElse h
      have hlines := splitElse_eq_some h
      rw [hlines] at hw
      obtain ⟨hbefore, hafter⟩ := hw.of_append_cons hlevel
      rcases ih hsecond (hafter hdivider) hfind with hk | ⟨hk, hrest⟩
      · exact .inl hk
      · obtain ⟨first, plain, second, rest, rfl, hplain, hfirst, hall, hinside⟩ := hrest
        refine .inr ⟨hk, before ++ divider :: first, plain, second, rest, ?_, hplain, ?_, ?_,
          hinside⟩
        · simp [hlines]
        · exact hbefore.append (within_divider hlevel hdivider hfirst)
        · have hwhole := hbefore.append (within_divider hlevel hdivider hall)
          simpa using hwhole

/-! ## an `else` too many -/

/-- A line with the given number is an `else` that finds no place in its block.  The block
is opened by the line from which balanced lines lead up to the `else`: it is a loop, or an
`if` that has a plain `else` already. -/
def SurplusElse (lines : List SourceLine) (number : Nat) : Prop :=
  ∃ before opener inner line after,
    lines = before ++ opener :: (inner ++ line :: after) ∧ Balanced inner ∧
    line.keyword? = some .orElse ∧ line.number = number ∧
    (opener.keyword? = some .forEach ∨
      (opener.keyword? = some .ifTrue ∧ ∃ first plain second, inner = first ++ plain :: second ∧
        Balanced first ∧ plain.tokens = [.keyword .orElse] ∧ Balanced second))

theorem SurplusElse.of_infix {lines all : List SourceLine} {number : Nat}
    (h : SurplusElse lines number) (hall : lines <:+: all) : SurplusElse all number := by
  obtain ⟨before, opener, inner, line, after, rfl, hrest⟩ := h
  obtain ⟨start, finish, rfl⟩ := hall
  exact ⟨start ++ before, opener, inner, line, after ++ finish, by simp, hrest⟩

namespace Group

variable {g : Group} {part : List NestedLine}

/-- **The line that closes a branch** is an `end`, or it is an `else` too many. -/
theorem Branch.closing {closing : NestedLine} (h : g.Branch part) (hg : g.Nested)
    (hfind : part.find? (·.level = 0) = some closing) :
    closing.keyword? = some .endBlock ∨
      (closing.keyword? = some .orElse ∧
        SurplusElse (g.lines.map (·.toSourceLine)) closing.number) := by
  cases h with
  | ifTrue hk hpart =>
      have hclosing := hpart.closing (hg.closed _ hk rfl) (hg.within _ hk rfl) hfind
      rcases hclosing with hend | ⟨helse, first, plain, second, after, hlines, hplain, hfirst, hall,
        hsecond⟩
      · exact .inl hend
      · refine .inr ⟨helse, [], g.head.toSourceLine,
          (first ++ plain :: second).map (·.toSourceLine), closing.toSourceLine,
          after.map (·.toSourceLine), ?_, hall.balanced, helse, rfl, .inr ⟨hk, ?_⟩⟩
        · simp [Group.lines, hlines]
        · exact ⟨first.map (·.toSourceLine), plain.toSourceLine, second.map (·.toSourceLine),
            by simp, hfirst.balanced, hplain, hsecond.balanced⟩
  | forEach hk =>
      have hclosed := hg.closed _ hk rfl
      obtain ⟨inner, rest, hlines, -, hlevel, hkeyword⟩ := hclosed.of_find? hfind
      rcases hkeyword with hend | helse
      · exact .inl hend
      · have hw := hg.within _ hk rfl
        rw [hlines] at hw
        refine .inr ⟨helse, [], g.head.toSourceLine, inner.map (·.toSourceLine),
          closing.toSourceLine, rest.map (·.toSourceLine), ?_, (hw.of_append_cons hlevel).1.balanced,
          helse, rfl, .inl hk⟩
        simp [Group.lines, hlines]

/-- A branch whose end is refused ends with tokens after `end`, or with an `else` too
many. -/
theorem Branch.cause_of_branchBody (h : g.Branch part) (hg : g.Nested) {fault : Fault ParseCause}
    (hfault : branchBody part = .error fault) :
    fault.cause = .trailingTokens .endBlock ∨
      (fault.cause = .unexpectedKeyword .orElse ∧
        SurplusElse (g.lines.map (·.toSourceLine)) fault.line) := by
  obtain ⟨closing, hfind, hcheck⟩ := exists_of_branchBody_error hfault
  rcases h.closing hg hfind with hk | ⟨hk, hsurplus⟩
  · obtain ⟨rest, htokens⟩ := exists_tokens_of_keyword? hk
    unfold checkClosing at hcheck
    cases rest with
    | nil => simp [htokens] at hcheck
    | cons token rest =>
        simp only [htokens, Except.error.injEq] at hcheck
        exact .inl (by rw [← hcheck])
  · obtain ⟨rest, htokens⟩ := exists_tokens_of_keyword? hk
    unfold checkClosing at hcheck
    simp only [htokens, Except.error.injEq] at hcheck
    rw [← hcheck]
    exact .inr ⟨rfl, hsurplus⟩

/-- What is at fault in a nested group that starts a statement: if it is an unexpected
keyword, it is an `else` too many. -/
theorem AtFault.surplus {fault : Fault ParseCause} (h : g.AtFault fault) (hg : g.Nested)
    (helse : g.head.keyword? ≠ some .orElse)
    (hcause : fault.cause = .unexpectedKeyword .orElse) :
    SurplusElse (g.lines.map (·.toSourceLine)) fault.line := by
  cases h with
  | inline h => exact absurd hcause (h.2 _)
  | start hk h hstart =>
      obtain rfl : .orElse = _ := ParseCause.unexpectedKeyword.inj (hcause.symm.trans hstart)
      exact absurd h helse
  | closing hpart h =>
      rcases hpart.cause_of_branchBody hg h with htrailing | ⟨-, hsurplus⟩
      · rw [hcause] at htrailing
        contradiction
      · exact hsurplus
  | grouping hpart hbody h =>
      have hinline := (hpart.bounded hg).inline_groupLines hbody fault h
      exact absurd hcause (hinline.2 _)

/-! ## groups inside groups -/

theorem infix_of_groupLines {lines : List SourceLine} {groups : List Group}
    (h : groupLines lines = .ok groups) (hmem : g ∈ groups) :
    g.lines.map (·.toSourceLine) <:+: lines := by
  obtain ⟨first, second, rfl⟩ := List.append_of_mem hmem
  refine ⟨(first.flatMap Group.lines).map (·.toSourceLine),
    (second.flatMap Group.lines).map (·.toSourceLine), ?_⟩
  rw [← flatMap_lines_groupLines h]
  simp

/-- The branches of an `if` are among the lines below it. -/
theorem infix_of_branch {lines part : List NestedLine} (h : Parse.Branch lines part) :
    part <:+: lines := by
  induction h with
  | only _ => exact List.infix_refl _
  | first h =>
      rw [splitElse_eq_some h]
      exact (List.prefix_append _ _).isInfix
  | otherwise h _ =>
      rw [splitElse_eq_some h]
      exact ((List.suffix_cons _ _).trans (List.suffix_append _ _)).isInfix
  | chained h _ _ ih =>
      rw [splitElse_eq_some h]
      exact ih.trans ((List.suffix_cons _ _).trans (List.suffix_append _ _)).isInfix

theorem Branch.isInfix (h : g.Branch part) : part <:+: g.lines := by
  cases h with
  | ifTrue _ hpart => exact (infix_of_branch hpart).trans (List.suffix_cons _ _).isInfix
  | forEach _ => exact (List.suffix_cons _ _).isInfix

/-- The lines of a group that reading comes to stand together. -/
theorem Reaches.isInfix {inner : Group} (h : g.Reaches inner) :
    inner.lines.map (·.toSourceLine) <:+: g.lines.map (·.toSourceLine) := by
  induction h with
  | refl => exact List.infix_refl _
  | inside hpart hbody hgroups hmem _ ih =>
      refine (ih.trans (infix_of_groupLines hgroups hmem)).trans ?_
      rw [eq_takeWhile_of_branchBody hbody]
      exact ((List.takeWhile_prefix _).isInfix.trans hpart.isInfix).map _

end Group

/-! ## programs -/

/-- **Blocks are settled by grouping**: if the lines of a program are grouped, reading them,
whatever names were assigned before, never finds a block left open or an `end` without a
block, and an `else` does not fit only if it is one too many.  Reading comes only to groups
that start with neither `else` nor `end`.  A branch of such a group is never met by a line
that starts with no keyword, and if it is grouped again, each line is one level below the
one it has in the group. -/
theorem blocks_settled {lines : List SourceLine} {groups : List Group}
    (h : groupLines lines = .ok groups) :
    (∀ names fault after, Parse.program lines names = .error fault after →
      fault.cause ≠ .unclosedBlock ∧ fault.cause ≠ .unexpectedKeyword .endBlock ∧
      (fault.cause = .unexpectedKeyword .orElse → SurplusElse lines fault.line)) ∧
    ∀ outer ∈ groups, ∀ g, outer.Reaches g →
      g.head.keyword? ≠ some .orElse ∧ g.head.keyword? ≠ some .endBlock ∧
      ∀ part, g.Branch part →
        (∀ number, branchBody part ≠ .error ⟨.notAllowedStart, number⟩) ∧
        ∀ body inner, branchBody part = .ok body → groupLines body = .ok inner →
          part.takeWhile (·.level ≠ 0) = (inner.flatMap Group.lines).map NestedLine.raised := by
  have hnested : ∀ outer ∈ groups, ∀ g, outer.Reaches g → g.Nested := fun outer hmem g hreaches =>
    hreaches.of_groupLines (nested_of_groupLines h outer hmem) nested_of_groupLines
  have hhead : ∀ outer ∈ groups, ∀ g, outer.Reaches g →
      g.head.level = 0 ∧ g.head.keyword? ≠ some .orElse ∧ g.head.keyword? ≠ some .endBlock :=
    fun outer hmem g hreaches => hreaches.of_groupLines
      ((grouped_of_groupLines h).head outer hmem) fun hgroups => (grouped_of_groupLines hgroups).head
  constructor
  · intro names fault after hfault
    rw [program_of_groupLines h] at hfault
    obtain ⟨outer, hmem, g, hreaches, hfault⟩ := failsAt_statements groups names fault after hfault
    have hg := hnested outer hmem g hreaches
    obtain ⟨hopen, hend⟩ := hfault.settled hg
    refine ⟨hopen, hend, fun hcause => ?_⟩
    have hsurplus := hfault.surplus hg (hhead outer hmem g hreaches).2.1 hcause
    exact hsurplus.of_infix (hreaches.isInfix.trans (Group.infix_of_groupLines h hmem))
  · intro outer hmem g hreaches
    have hg := hnested outer hmem g hreaches
    obtain ⟨-, helse, hend⟩ := hhead outer hmem g hreaches
    refine ⟨helse, hend, fun part hpart => ⟨fun number hfault => ?_, fun body inner => ?_⟩⟩
    · rcases hpart.cause_of_branchBody hg hfault with hcause | ⟨hcause, -⟩ <;> contradiction
    · exact hpart.regrouped hg

/-- A loop around an `if` that is divided twice. -/
def dividedTwice : List SourceLine :=
  [⟨1, [.keyword .forEach, .literal (.int 1), .operator (.binary .range), .literal (.int 3)]⟩,
    ⟨2, [.keyword .ifTrue, .literal (.bool true)]⟩,
    ⟨3, [.keyword .orElse]⟩,
    ⟨4, [.keyword .print, .literal (.int 1)]⟩,
    ⟨5, [.keyword .orElse]⟩,
    ⟨6, [.keyword .endBlock]⟩,
    ⟨7, [.keyword .endBlock]⟩]

/-- Its lines are grouped, and those of the loop are grouped again one level lower; its
second `else` is one too many. -/
theorem blocks_settled_dividedTwice :
    ∃ g, groupLines dividedTwice = .ok [g] ∧
      Parse.program dividedTwice [] = .error ⟨.unexpectedKeyword .orElse, 5⟩ [] ∧
      SurplusElse dividedTwice 5 ∧
      ∃ body inner, branchBody g.rest = .ok body ∧ groupLines body = .ok inner ∧
        g.rest.takeWhile (·.level ≠ 0) = (inner.flatMap Group.lines).map NestedLine.raised := by
  have hgroups : ∃ g, groupLines dividedTwice = .ok [g] ∧ g.head.keyword? = some .forEach ∧
      ∃ body inner, branchBody g.rest = .ok body ∧ groupLines body = .ok inner :=
    ⟨_, by cbv, by cbv, _, _, by cbv, by cbv⟩
  have hfault : Parse.program dividedTwice [] =
      .error ⟨.unexpectedKeyword .orElse, 5⟩ [] := by cbv
  obtain ⟨g, hg, hk, body, inner, hbody, hinner⟩ := hgroups
  obtain ⟨hprogram, hreading⟩ := blocks_settled hg
  have hbranch := (hreading g List.mem_cons_self g (.refl g)).2.2 g.rest (.forEach hk)
  exact ⟨g, hg, hfault, (hprogram [] _ _ hfault).2.2 rfl, body, inner, hbody, hinner,
    hbranch.2 body inner hbody hinner⟩

end LineScript
