import LineScript.Block
import LineScript.Expr.Operation

/-!
# LineScript.Program.Parser

Programs from lines of tokens.  The lines are grouped into top-level
statements, and the first line of a group decides what the statement is.  The
lines of a branch are grouped again before any of them is read.

A name is assigned at most once in a program, in whatever block the assignment
stands, so reading keeps the names assigned so far.  They survive a failure.

* `splitElse_eq_some` — the two parts and the dividing line are all the lines;
* `length_branchBody` — the lines of a branch are at most those it is cut from.
-/

namespace LineScript

/-- Reading statements: it may fail, and it keeps the names assigned so far,
latest first. -/
abbrev Parse := EStateM (Fault ParseCause) (List String)

namespace Parse

/-! ## the parts of a line -/

/-- Cut tokens at the first assignment operator. -/
def splitAssign : List Token → Option (List Token × List Token)
  | [] => none
  | token :: tokens =>
    if token = .operator .assign then some ([], tokens)
    else (splitAssign tokens).map fun (left, right) => (token :: left, right)

/-- The operand after `print`: an operation, a literal or a variable. -/
def printed (line : Nat) (args : List Token) : Except (Fault ParseCause) Expr :=
  if args.any Token.isOperator then Expr.ofTokens line args
  else
    match args with
    | [] => .error ⟨.missingExpression .print, line⟩
    | [.literal value] => .ok (.literal line value)
    | [.word name] => .ok (.var line name)
    | _ => .error ⟨.invalidPrintArgument, line⟩

/-- The operand after a keyword that opens a block. -/
def controlling (k : Keyword) (line : Nat) (args : List Token) : Except (Fault ParseCause) Expr :=
  if args.isEmpty then .error ⟨.missingExpression k, line⟩ else Expr.ofTokens line args

/-- The range after `for`, and the name it gives to the element if it gives
one. -/
def loopHeader (line : Nat) (args : List Token) :
    Except (Fault ParseCause) (Option String × Expr) := do
  let header ← controlling .forEach line args
  match header with
  | .binary _ .isIn (.var _ name) range =>
    if range.isRange then return (some name, range) else .error ⟨.nonRangeLoop, line⟩
  | _ => if header.isRange then return (none, header) else .error ⟨.nonRangeLoop, line⟩

/-! ## the parts of a block -/

/-- Cut the lines after an `if` at the first `else` of its own level. -/
def splitElse : List NestedLine → Option (List NestedLine × NestedLine × List NestedLine)
  | [] => none
  | line :: lines =>
    if line.level = 0 ∧ line.keyword? = some .orElse then some ([], line, lines)
    else (splitElse lines).map fun (before, divider, after) => (line :: before, divider, after)

/-- The two parts and the dividing line are all the lines. -/
theorem splitElse_eq_some {lines before after : List NestedLine} {divider : NestedLine}
    (h : splitElse lines = some (before, divider, after)) : lines = before ++ divider :: after := by
  induction lines generalizing before with
  | nil => simp [splitElse] at h
  | cons line lines ih =>
      unfold splitElse at h
      split at h
      · simp only [Option.some.injEq, Prod.mk.injEq] at h
        obtain ⟨rfl, rfl, rfl⟩ := h
        rfl
      · obtain ⟨⟨b, d, a⟩, hs, heq⟩ := Option.map_eq_some_iff.mp h
        simp only [Prod.mk.injEq] at heq
        obtain ⟨rfl, rfl, rfl⟩ := heq
        simp [ih hs]

/-- Both parts are shorter than the lines. -/
theorem length_lt_of_splitElse {lines before after : List NestedLine} {divider : NestedLine}
    (h : splitElse lines = some (before, divider, after)) :
    before.length < lines.length ∧ after.length < lines.length := by
  rw [splitElse_eq_some h]
  simp; omega

/-- Accept the line that closes a branch: it holds nothing but `end`. -/
def checkClosing (line : NestedLine) : Except (Fault ParseCause) Unit :=
  match line.tokens with
  | [.keyword .endBlock] => .ok ()
  | .keyword .endBlock :: _ => .error ⟨.trailingTokens .endBlock, line.number⟩
  | .keyword k :: _ => .error ⟨.unexpectedKeyword k, line.number⟩
  | _ => .error ⟨.notAllowedStart, line.number⟩

/-- The lines of a branch: those before the first line back on the level of the
line that opened it, which has to close it. -/
def branchBody (lines : List NestedLine) : Except (Fault ParseCause) (List SourceLine) := do
  match lines.find? (·.level = 0) with
  | some closing => checkClosing closing
  | none => pure ()
  return (lines.takeWhile (·.level ≠ 0)).map (·.toSourceLine)

/-- The lines of a branch come first among those it is cut from. -/
theorem eq_takeWhile_of_branchBody {lines : List NestedLine} {body : List SourceLine}
    (h : branchBody lines = .ok body) :
    body = (lines.takeWhile (·.level ≠ 0)).map (·.toSourceLine) := by
  simp only [branchBody, bind, Except.bind, pure, Except.pure] at h
  split at h
  · split at h
    · contradiction
    · exact (Except.ok.inj h).symm
  · exact (Except.ok.inj h).symm

/-- The lines of a branch are at most those it is cut from. -/
theorem length_branchBody {lines : List NestedLine} {body : List SourceLine}
    (h : branchBody lines = .ok body) : body.length ≤ lines.length := by
  rw [eq_takeWhile_of_branchBody h, List.length_map]
  exact (List.takeWhile_sublist _).length_le

/-! ## statements -/

/-- An operation, or its assignment to a name that was not assigned before. -/
def operation (line : Nat) (tokens : List Token) : Parse Expr :=
  match splitAssign tokens with
  | none => MonadExcept.ofExcept (Expr.ofTokens line tokens)
  | some ([.word name], right) => do
    if name ∈ (← get) then throw ⟨.doubleAssignment name, line⟩
    if right.isEmpty then throw ⟨.missingOperand .assign, line⟩
    let value ← MonadExcept.ofExcept (Expr.ofTokens line right)
    modify (name :: ·)
    return .assign line name value
  | some _ => throw ⟨.invalidTarget, line⟩

mutual

/-- The statement of a group of lines. -/
def statement (g : Group) : Parse Expr :=
  let line := g.head.number
  match g.head.tokens with
  | .keyword .print :: args => do
    let value ← MonadExcept.ofExcept (printed line args)
    return .print line value
  | .keyword .ifTrue :: args => branch line args g.rest
  | .keyword .forEach :: args => do
    let (name, range) ← MonadExcept.ofExcept (loopHeader line args)
    let body ← block g.rest
    return .loop line name range body
  | .keyword .whileTrue :: _ => throw ⟨.unsupportedKeyword .whileTrue, line⟩
  | .keyword k :: _ => throw ⟨.unexpectedKeyword k, line⟩
  | .word name :: .operator op :: rest => operation line (.word name :: .operator op :: rest)
  | _ => throw ⟨.notAllowedStart, line⟩
termination_by (g.size, 0)
decreasing_by all_goals (apply Prod.Lex.left; simp [Group.size])

/-- The statements of groups of lines, in order. -/
def statements (groups : List Group) : Parse (List Expr) :=
  match groups with
  | [] => return []
  | g :: groups => do
    let first ← statement g
    let others ← statements groups
    return first :: others
termination_by (Group.sizes groups, 1)
decreasing_by
  · rw [Group.sizes]
    rcases Nat.eq_zero_or_pos (Group.sizes groups) with h | h
    · rw [h]; exact Prod.Lex.right _ (by decide)
    · exact Prod.Lex.left _ _ (by omega)
  · apply Prod.Lex.left
    simp [Group.sizes, Group.size]

/-- The statements of a branch. -/
def block (lines : List NestedLine) : Parse (List Expr) :=
  match hb : branchBody lines with
  | .error e => throw e
  | .ok body =>
    match hg : groupLines body with
    | .error e => throw e
    | .ok groups =>
      have : Group.sizes groups ≤ lines.length :=
        length_groupLines hg ▸ length_branchBody hb
      statements groups
termination_by (lines.length, 2)
decreasing_by
  rcases Nat.lt_or_eq_of_le this with h | h
  · exact Prod.Lex.left _ _ h
  · rw [h]; exact Prod.Lex.right _ (by decide)

/-- An `if` with the tokens after it and the lines below it. -/
def branch (line : Nat) (args : List Token) (lines : List NestedLine) : Parse Expr := do
  let condition ← MonadExcept.ofExcept (controlling .ifTrue line args)
  match h : splitElse lines with
  | none =>
    let body ← block lines
    return .branch line condition body none
  | some (before, divider, after) =>
    have := length_lt_of_splitElse h
    let body ← block before
    match divider.tokens.tail with
    | [] =>
      let otherwise ← block after
      return .branch line condition body (some otherwise)
    | .keyword .ifTrue :: more =>
      let chained ← branch divider.number more after
      return .branch line condition body (some [chained])
    | _ => throw ⟨.trailingTokens .orElse, divider.number⟩
termination_by (lines.length, 3)
decreasing_by
  · exact Prod.Lex.right _ (by decide)
  · exact Prod.Lex.left _ _ this.1
  · exact Prod.Lex.left _ _ this.2
  · exact Prod.Lex.left _ _ this.2

end

/-- The program of the given lines. -/
def program (lines : List SourceLine) : Parse Program := do
  let groups ← MonadExcept.ofExcept (groupLines lines)
  statements groups

end Parse

/-- The program of the given lines, read with no name assigned before. -/
def parse (lines : List SourceLine) : Except (Fault ParseCause) Program :=
  match (Parse.program lines).run [] with
  | .ok program _ => .ok program
  | .error fault _ => .error fault

end LineScript
