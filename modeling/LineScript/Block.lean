import LineScript.Error
import LineScript.Token.Basic

/-!
# LineScript.Block

Blocks of lines.  A line that starts with `if`, `for` or `while` opens a block
and a line that starts with `end` closes one.  The lines of a program fall into
groups: each group is one top-level statement, with all lines of the block it
opens.

* `length_groupLines` — grouping keeps every line.
-/

namespace LineScript

/-! ## nesting -/

/-- How a line with the given tokens changes the number of open blocks. -/
def nestingDelta (tokens : List Token) : Int :=
  match tokens with
  | .keyword k :: _ => if k = .endBlock then -1 else if k.opensBlock then 1 else 0
  | _ => 0

/-- A line and its nesting level.  The lines that open, divide and close a
block share one level, and the lines between them lie deeper. -/
structure NestedLine extends SourceLine where
  level : Nat
  deriving DecidableEq, Repr

/-- One top-level statement: its first line and all further lines of the block
it opens. -/
structure Group where
  head : NestedLine
  rest : List NestedLine
  deriving DecidableEq, Repr

namespace Group

/-- The number of lines of a group. -/
def size (g : Group) : Nat := g.rest.length + 1

/-- The number of lines of several groups. -/
def sizes : List Group → Nat
  | [] => 0
  | g :: groups => g.size + sizes groups

/-- The lines of a group, in order. -/
def lines (g : Group) : List NestedLine := g.head :: g.rest

end Group

/-! ## grouping -/

/-- Whether the tokens start with a word and then another word or a keyword. -/
def isUnknownConstruction : List Token → Bool
  | .word _ :: .word _ :: _ => true
  | .word _ :: .keyword _ :: _ => true
  | _ => false

/-- The level of a line that is met inside `depth` open blocks, and the number
of blocks that are open after it. -/
def place (depth : Nat) (line : SourceLine) : Except (Fault ParseCause) (Nat × Nat) :=
  if depth = 0 ∧ isUnknownConstruction line.tokens then .error ⟨.unknownConstruction, line.number⟩
  else
    match line.keyword? with
    | some .endBlock =>
      match depth with
      | 0 => .error ⟨.unexpectedKeyword .endBlock, line.number⟩
      | outer + 1 => .ok (outer, outer)
    | some .orElse =>
      match depth with
      | 0 => .error ⟨.unexpectedKeyword .orElse, line.number⟩
      | outer + 1 => .ok (outer, depth)
    | some k => .ok (depth, if k.opensBlock then depth + 1 else depth)
    | none => .ok (depth, depth)

/-- Group lines that are met inside `depth` open blocks of a group whose first
line has number `opener`.  The result is the remaining lines of that group,
which are none if no block is open, and the groups after it. -/
def groupFrom (depth opener : Nat) :
    List SourceLine → Except (Fault ParseCause) (List NestedLine × List Group)
  | [] => if depth = 0 then .ok ([], []) else .error ⟨.unclosedBlock, opener⟩
  | line :: lines => do
    let (level, after) ← place depth line
    let (rest, groups) ← groupFrom after (if depth = 0 then line.number else opener) lines
    return if depth = 0 then ([], ⟨⟨line, level⟩, rest⟩ :: groups) else (⟨line, level⟩ :: rest, groups)

/-- Group the lines of a program into its top-level statements. -/
def groupLines (lines : List SourceLine) : Except (Fault ParseCause) (List Group) :=
  (groupFrom 0 0 lines).map (·.2)

/-! ## nothing is lost -/

/-- The remaining lines and the groups after them are all the lines. -/
theorem length_groupFrom {depth opener : Nat} {lines : List SourceLine} {rest : List NestedLine}
    {groups : List Group} (h : groupFrom depth opener lines = .ok (rest, groups)) :
    rest.length + Group.sizes groups = lines.length := by
  induction lines generalizing depth opener rest groups with
  | nil =>
      unfold groupFrom at h
      split at h
      · cases h; rfl
      · contradiction
  | cons line lines ih =>
      simp only [groupFrom, bind, Except.bind, pure, Except.pure] at h
      split at h
      · contradiction
      · split at h
        · contradiction
        · next r hr =>
          have := ih hr
          split at h
          · cases h; simp [Group.sizes, Group.size, ← this]; omega
          · cases h; simp [← this]; omega

/-- If no block is open, no lines of an earlier group remain. -/
theorem fst_groupFrom_zero {opener : Nat} {lines : List SourceLine} {rest : List NestedLine}
    {groups : List Group} (h : groupFrom 0 opener lines = .ok (rest, groups)) : rest = [] := by
  cases lines with
  | nil => simp [groupFrom] at h; exact h.1
  | cons line lines =>
      simp only [groupFrom, bind, Except.bind, pure, Except.pure] at h
      split at h
      · contradiction
      · split at h
        · contradiction
        · simp at h; exact h.1

/-- Grouping keeps every line. -/
theorem length_groupLines {lines : List SourceLine} {groups : List Group}
    (h : groupLines lines = .ok groups) : Group.sizes groups = lines.length := by
  unfold groupLines at h
  cases hg : groupFrom 0 0 lines with
  | error e => simp [hg, Except.map] at h
  | ok r =>
      obtain ⟨rest, groups'⟩ := r
      have hlen := length_groupFrom hg
      simp only [hg, Except.map, Except.ok.injEq] at h
      simpa [fst_groupFrom_zero hg, h] using hlen

end LineScript
