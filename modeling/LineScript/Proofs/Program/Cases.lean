import LineScript.Program.Parser
import LineScript.Proofs.Expr.Canonical
import LineScript.Proofs.Stateful

/-!
# LineScript.Proofs.Program.Cases

When reading succeeds: for each part of a program, what its tokens and lines are
and what is read from them.
-/

namespace LineScript

namespace Parse

variable {line : Nat} {names after : List String}

/-! ## the parts of a line -/

theorem splitAssign_eq_none_iff {tokens : List Token} :
    splitAssign tokens = none ↔ .operator .assign ∉ tokens := by
  induction tokens with
  | nil => simp [splitAssign]
  | cons token tokens ih =>
      unfold splitAssign
      split
      · next h => simp [h]
      · next h => simp [ih, Ne.symm h]

theorem splitAssign_eq_some {tokens left right : List Token}
    (h : splitAssign tokens = some (left, right)) :
    tokens = left ++ .operator .assign :: right := by
  induction tokens generalizing left with
  | nil => simp [splitAssign] at h
  | cons token tokens ih =>
      unfold splitAssign at h
      split at h
      · next htoken => cases h; simp [htoken]
      · obtain ⟨⟨l, r⟩, hs, heq⟩ := Option.map_eq_some_iff.mp h
        cases heq
        simp [ih hs]

theorem ofTokens_nil_ne_ok {e : Expr} : Expr.ofTokens line [] ≠ .ok e := by
  intro h
  obtain ⟨hcan, -, hflat⟩ := Expr.canonical_of_ofTokens h
  exact hcan.flatten_ne_nil hflat

/-- What may be printed is what is read as an operand. -/
theorem printed_eq_ok_iff {args : List Token} {e : Expr} :
    printed line args = .ok e ↔ Expr.ofTokens line args = .ok e := by
  unfold printed
  split
  · rfl
  · next hop =>
    split
    · simp [ofTokens_nil_ne_ok]
    · simp [Expr.ofTokens_singleton, Expr.ofToken]
    · simp [Expr.ofTokens_singleton, Expr.ofToken]
    · next hliteral hword =>
      simp only [reduceCtorEq, false_iff]
      intro h
      rcases Expr.ofTokens_cases h with ⟨token, rfl, htoken⟩ | ⟨-, rest, operand, rfl, -⟩ |
        ⟨-, -, s, left, right, hs, -⟩
      · rcases Expr.ofToken_eq_ok_iff.mp htoken with ⟨value, rfl, -⟩ | ⟨name, rfl, -⟩
        · exact hliteral value rfl
        · exact hword name rfl
      · simp [Token.isOperator, Token.operator?] at hop
      · simp [Expr.splitLoosest_eq_some hs, Token.isOperator, Token.operator?] at hop

theorem controlling_eq_ok_iff {k : Keyword} {args : List Token} {e : Expr} :
    controlling k line args = .ok e ↔ Expr.ofTokens line args = .ok e := by
  unfold controlling
  cases args with
  | nil => simp [ofTokens_nil_ne_ok]
  | cons token args => simp

/-- What a loop can count through: two operands with `..` or `..=` between them. -/
inductive LoopRange : Expr → Prop where
  | exclusive (n : Nat) (start stop : Expr) : LoopRange (.binary n .range start stop)
  | inclusive (n : Nat) (start stop : Expr) : LoopRange (.binary n .rangeInclusive start stop)

theorem isRange_iff {e : Expr} : e.isRange = true ↔ LoopRange e := by
  constructor
  · intro h
    cases e with
    | binary n op start stop =>
        cases op with
        | range => exact .exclusive n start stop
        | rangeInclusive => exact .inclusive n start stop
        | _ => contradiction
    | _ => contradiction
  · intro h
    cases h <;> rfl

/-- The headers of loops: a range, or a range after a word and `in`. -/
inductive LoopHeader : Expr → Option String → Expr → Prop where
  | bare {range : Expr} (h : LoopRange range) : LoopHeader range none range
  | named (n m : Nat) (name : String) {range : Expr} (h : LoopRange range) :
      LoopHeader (.binary n .isIn (.var m name) range) (some name) range

theorem loopHeader_eq_ok_iff {args : List Token} {name : Option String} {range : Expr} :
    loopHeader line args = .ok (name, range) ↔
      ∃ header, Expr.ofTokens line args = .ok header ∧ LoopHeader header name range := by
  rw [loopHeader, Except.bind_eq_ok_iff]
  refine exists_congr fun header => and_congr controlling_eq_ok_iff ?_
  constructor
  · intro h
    split at h
    · split at h
      · next hrange => cases h; exact .named _ _ _ (isRange_iff.mp hrange)
      · contradiction
    · split at h
      · next hrange => cases h; exact .bare (isRange_iff.mp hrange)
      · contradiction
  · intro h
    cases h with
    | named n m name hrange => simp [isRange_iff.mpr hrange, pure, Except.pure]
    | bare hrange =>
        split
        · cases hrange
        · simp [isRange_iff.mpr hrange, pure, Except.pure]

/-! ## statements -/

/-- An assignment looks for its name among those assigned before it reads its
value, and adds the name after it. -/
theorem operation_assign {name : String} {right : List Token} :
    operation line (.word name :: .operator .assign :: right) names =
      if name ∈ names then .error ⟨.doubleAssignment name, line⟩ names
      else if right.isEmpty then .error ⟨.missingOperand .assign, line⟩ names
      else
        match Expr.ofTokens line right with
        | .ok value => .ok (.assign line name value) (name :: names)
        | .error fault => .error fault names := by
  have hs : splitAssign (.word name :: .operator .assign :: right) =
      some ([.word name], right) := by
    simp [splitAssign]
  rw [operation, hs]
  refine (EStateM.bind_of_ok (x := get) (a := names) rfl).trans ?_
  split
  · rfl
  · split
    · rfl
    · cases Expr.ofTokens line right <;> rfl

/-- An operation without an assignment leaves the names alone; an assignment
adds its name, which has to be new. -/
theorem operation_eq_ok_iff {tokens : List Token} {e : Expr} :
    operation line tokens names = .ok e after ↔
      (.operator .assign ∉ tokens ∧ Expr.ofTokens line tokens = .ok e ∧ names = after) ∨
      ∃ name right value, tokens = .word name :: .operator .assign :: right ∧ name ∉ names ∧
        Expr.ofTokens line right = .ok value ∧ e = .assign line name value ∧
        name :: names = after := by
  constructor
  · intro h
    generalize hm : operation line tokens = m at h
    unfold operation at hm
    split at hm <;> subst hm
    · next hs =>
      obtain ⟨he, hafter⟩ := EStateM.ofExcept_eq_ok_iff.mp h
      exact .inl ⟨splitAssign_eq_none_iff.mp hs, he, hafter⟩
    · next name right hs =>
      rw [EStateM.bind_eq_ok_iff] at h
      obtain ⟨_, _, hget, h⟩ := h
      cases hget
      by_cases hname : name ∈ names
      · rw [if_pos hname] at h; cases h
      · rw [if_neg hname] at h
        by_cases hright : right.isEmpty = true
        · rw [if_pos hright] at h; cases h
        · rw [if_neg hright] at h
          obtain ⟨value, _, hread, h⟩ := EStateM.bind_eq_ok_iff.mp h
          obtain ⟨hvalue, rfl⟩ := EStateM.ofExcept_eq_ok_iff.mp hread
          cases h
          exact .inr ⟨name, right, value, splitAssign_eq_some hs, hname, hvalue, rfl, rfl⟩
    · exact absurd h EStateM.throw_ne_ok
  · rintro (⟨hassign, he, rfl⟩ | ⟨name, right, value, rfl, hname, hvalue, rfl, rfl⟩)
    · rw [operation, splitAssign_eq_none_iff.mpr hassign]
      exact EStateM.ofExcept_eq_ok_iff.mpr ⟨he, rfl⟩
    · have hs : splitAssign (.word name :: .operator .assign :: right) =
          some ([.word name], right) := by
        simp [splitAssign]
      have hright : right.isEmpty = false := by
        cases right with
        | nil => exact absurd hvalue ofTokens_nil_ne_ok
        | cons token right => rfl
      rw [operation, hs]
      refine EStateM.bind_eq_ok_iff.mpr ⟨names, names, rfl, ?_⟩
      rw [if_neg hname, hright, hvalue]
      rfl

theorem statement_print {args : List Token} {value : Expr} {level : Nat} {rest : List NestedLine}
    (h : Expr.ofTokens line args = .ok value) :
    statement ⟨⟨⟨line, .keyword .print :: args⟩, level⟩, rest⟩ names =
      .ok (.print line value) names := by
  rw [statement]
  exact EStateM.bind_of_ok (EStateM.ofExcept_eq_ok_iff.mpr ⟨printed_eq_ok_iff.mpr h, rfl⟩)

theorem statement_ifTrue {args : List Token} {level : Nat} {rest : List NestedLine} :
    statement ⟨⟨⟨line, .keyword .ifTrue :: args⟩, level⟩, rest⟩ = branch line args rest := by
  rw [statement]

theorem statement_forEach {args : List Token} {name : Option String} {range : Expr}
    {body : List Expr} {level : Nat} {rest : List NestedLine}
    (h : loopHeader line args = .ok (name, range)) (hbody : block rest names = .ok body after) :
    statement ⟨⟨⟨line, .keyword .forEach :: args⟩, level⟩, rest⟩ names =
      .ok (.loop line name range body) after := by
  rw [statement]
  refine EStateM.bind_eq_ok_iff.mpr ⟨_, names, EStateM.ofExcept_eq_ok_iff.mpr ⟨h, rfl⟩, ?_⟩
  exact EStateM.bind_of_ok hbody

theorem statement_word {name : String} {op : Operator} {tokens : List Token} {level : Nat}
    {rest : List NestedLine} :
    statement ⟨⟨⟨line, .word name :: .operator op :: tokens⟩, level⟩, rest⟩ =
      operation line (.word name :: .operator op :: tokens) := by
  rw [statement]

/-- What a group that is read starts with. -/
theorem statement_cases {g : Group} {e : Expr} (h : statement g names = .ok e after) :
    (∃ args value, g.head.tokens = .keyword .print :: args ∧
      Expr.ofTokens g.head.number args = .ok value ∧ e = .print g.head.number value ∧
      names = after) ∨
    (∃ args, g.head.tokens = .keyword .ifTrue :: args ∧
      branch g.head.number args g.rest names = .ok e after) ∨
    (∃ args name range body, g.head.tokens = .keyword .forEach :: args ∧
      loopHeader g.head.number args = .ok (name, range) ∧ block g.rest names = .ok body after ∧
      e = .loop g.head.number name range body) ∨
    (∃ name op rest, g.head.tokens = .word name :: .operator op :: rest ∧
      operation g.head.number (.word name :: .operator op :: rest) names = .ok e after) := by
  generalize hm : statement g = m at h
  rw [statement] at hm
  split at hm <;> subst hm
  · next args hhead =>
    obtain ⟨value, _, hread, h⟩ := EStateM.bind_eq_ok_iff.mp h
    obtain ⟨hvalue, rfl⟩ := EStateM.ofExcept_eq_ok_iff.mp hread
    obtain ⟨rfl, rfl⟩ := EStateM.pure_eq_ok_iff.mp h
    exact .inl ⟨args, value, hhead, printed_eq_ok_iff.mp hvalue, rfl, rfl⟩
  · next args hhead => exact .inr (.inl ⟨args, hhead, h⟩)
  · next args hhead =>
    obtain ⟨⟨name, range⟩, _, hread, h⟩ := EStateM.bind_eq_ok_iff.mp h
    obtain ⟨hheader, rfl⟩ := EStateM.ofExcept_eq_ok_iff.mp hread
    obtain ⟨body, _, hbody, h⟩ := EStateM.bind_eq_ok_iff.mp h
    obtain ⟨rfl, rfl⟩ := EStateM.pure_eq_ok_iff.mp h
    exact .inr (.inr (.inl ⟨args, name, range, body, hhead, hheader, hbody, rfl⟩))
  · exact absurd h EStateM.throw_ne_ok
  · exact absurd h EStateM.throw_ne_ok
  · next name op rest hhead => exact .inr (.inr (.inr ⟨name, op, rest, hhead, h⟩))
  · exact absurd h EStateM.throw_ne_ok

theorem statements_cons_eq_ok_iff {g : Group} {groups : List Group} {p : List Expr} :
    statements (g :: groups) names = .ok p after ↔
      ∃ e es between, statement g names = .ok e between ∧
        statements groups between = .ok es after ∧ p = e :: es := by
  rw [statements, EStateM.bind_eq_ok_iff]
  constructor
  · rintro ⟨e, between, he, h⟩
    obtain ⟨es, _, hes, h⟩ := EStateM.bind_eq_ok_iff.mp h
    obtain ⟨rfl, rfl⟩ := EStateM.pure_eq_ok_iff.mp h
    exact ⟨e, es, between, he, hes, rfl⟩
  · rintro ⟨e, es, between, he, hes, rfl⟩
    exact ⟨e, between, he, EStateM.bind_of_ok hes⟩

/-- The statements of a branch, as the sequence of its parts. -/
theorem block_eq_bind (lines : List NestedLine) :
    block lines = (do
      let body ← MonadExcept.ofExcept (branchBody lines)
      let groups ← MonadExcept.ofExcept (groupLines body)
      statements groups) := by
  rw [block]
  split
  · next fault hbody =>
    rw [hbody]
    rfl
  · next body hbody =>
    have hbind : (do
        let body ← MonadExcept.ofExcept (branchBody lines)
        let groups ← MonadExcept.ofExcept (groupLines body)
        statements groups : Parse (List Expr)) =
          MonadExcept.ofExcept (groupLines body) >>= statements := by
      rw [hbody]
      rfl
    rw [hbind]
    split
    · next fault hgroups =>
      rw [hgroups]
      rfl
    · next groups hgroups =>
      show statements groups = _
      rw [hgroups]
      rfl

theorem block_eq_ok_iff {lines : List NestedLine} {p : List Expr} :
    block lines names = .ok p after ↔
      ∃ body groups, branchBody lines = .ok body ∧ groupLines body = .ok groups ∧
        statements groups names = .ok p after := by
  rw [block_eq_bind, EStateM.bind_eq_ok_iff]
  constructor
  · rintro ⟨body, _, hread, h⟩
    obtain ⟨hbody, rfl⟩ := EStateM.ofExcept_eq_ok_iff.mp hread
    obtain ⟨groups, _, hgrouped, h⟩ := EStateM.bind_eq_ok_iff.mp h
    obtain ⟨hgroups, rfl⟩ := EStateM.ofExcept_eq_ok_iff.mp hgrouped
    exact ⟨body, groups, hbody, hgroups, h⟩
  · rintro ⟨body, groups, hbody, hgroups, h⟩
    refine ⟨body, names, EStateM.ofExcept_eq_ok_iff.mpr ⟨hbody, rfl⟩, ?_⟩
    exact EStateM.bind_eq_ok_iff.mpr
      ⟨groups, names, EStateM.ofExcept_eq_ok_iff.mpr ⟨hgroups, rfl⟩, h⟩

theorem branch_of_none {args : List Token} {lines : List NestedLine}
    (h : splitElse lines = none) :
    branch line args lines = (do
      let condition ← MonadExcept.ofExcept (controlling .ifTrue line args)
      let body ← block lines
      return .branch line condition body none) := by
  rw [branch]
  refine bind_congr fun condition => ?_
  split
  · rfl
  · next hsome => simp [h] at hsome

theorem branch_of_some {args : List Token} {lines first second : List NestedLine}
    {divider : NestedLine} (h : splitElse lines = some (first, divider, second)) :
    branch line args lines = (do
      let condition ← MonadExcept.ofExcept (controlling .ifTrue line args)
      let body ← block first
      match divider.tokens.tail with
      | [] =>
        let otherwise ← block second
        return .branch line condition body (some otherwise)
      | .keyword .ifTrue :: more =>
        let chained ← branch divider.number more second
        return .branch line condition body (some [chained])
      | _ => throw ⟨.trailingTokens .orElse, divider.number⟩) := by
  rw [branch]
  refine bind_congr fun condition => ?_
  split
  · next hnone => simp [h] at hnone
  · next f d t hsome =>
    obtain ⟨rfl, rfl, rfl⟩ : f = first ∧ d = divider ∧ t = second := by
      simpa [h, eq_comm] using hsome
    rfl

/-- An `if` without an `else`. -/
theorem branch_none_eq_ok_iff {args : List Token} {lines : List NestedLine} {e : Expr}
    (h : splitElse lines = none) :
    branch line args lines names = .ok e after ↔
      ∃ condition body, Expr.ofTokens line args = .ok condition ∧
        block lines names = .ok body after ∧ e = .branch line condition body none := by
  rw [branch_of_none h, EStateM.bind_eq_ok_iff]
  constructor
  · rintro ⟨condition, _, hread, h⟩
    obtain ⟨hcondition, rfl⟩ := EStateM.ofExcept_eq_ok_iff.mp hread
    obtain ⟨body, _, hbody, h⟩ := EStateM.bind_eq_ok_iff.mp h
    obtain ⟨rfl, rfl⟩ := EStateM.pure_eq_ok_iff.mp h
    exact ⟨condition, body, controlling_eq_ok_iff.mp hcondition, hbody, rfl⟩
  · rintro ⟨condition, body, hcondition, hbody, rfl⟩
    rw [← controlling_eq_ok_iff (k := .ifTrue)] at hcondition
    exact ⟨condition, names, EStateM.ofExcept_eq_ok_iff.mpr ⟨hcondition, rfl⟩,
      EStateM.bind_of_ok hbody⟩

/-- An `if` with an `else`, which may start a further `if`. -/
theorem branch_some_eq_ok_iff {args : List Token} {lines first second : List NestedLine}
    {divider : NestedLine} {e : Expr} (h : splitElse lines = some (first, divider, second)) :
    branch line args lines names = .ok e after ↔
      ∃ condition body between, Expr.ofTokens line args = .ok condition ∧
        block first names = .ok body between ∧
        ((divider.tokens.tail = [] ∧ ∃ otherwise, block second between = .ok otherwise after ∧
            e = .branch line condition body (some otherwise)) ∨
          ∃ more chained, divider.tokens.tail = .keyword .ifTrue :: more ∧
            branch divider.number more second between = .ok chained after ∧
            e = .branch line condition body (some [chained])) := by
  rw [branch_of_some h, EStateM.bind_eq_ok_iff]
  constructor
  · rintro ⟨condition, _, hread, h⟩
    obtain ⟨hcondition, rfl⟩ := EStateM.ofExcept_eq_ok_iff.mp hread
    obtain ⟨body, between, hbody, h⟩ := EStateM.bind_eq_ok_iff.mp h
    refine ⟨condition, body, between, controlling_eq_ok_iff.mp hcondition, hbody, ?_⟩
    cases htail : divider.tokens.tail with
    | nil =>
        rw [htail] at h
        obtain ⟨otherwise, _, hotherwise, h⟩ := EStateM.bind_eq_ok_iff.mp h
        obtain ⟨rfl, rfl⟩ := EStateM.pure_eq_ok_iff.mp h
        exact .inl ⟨rfl, otherwise, hotherwise, rfl⟩
    | cons token more =>
        rw [htail] at h
        cases token with
        | keyword k =>
            cases k with
            | ifTrue =>
                obtain ⟨chained, _, hchained, h⟩ := EStateM.bind_eq_ok_iff.mp h
                obtain ⟨rfl, rfl⟩ := EStateM.pure_eq_ok_iff.mp h
                exact .inr ⟨more, chained, rfl, hchained, rfl⟩
            | _ => exact absurd h EStateM.throw_ne_ok
        | _ => exact absurd h EStateM.throw_ne_ok
  · rintro ⟨condition, body, between, hcondition, hbody, h⟩
    rw [← controlling_eq_ok_iff (k := .ifTrue)] at hcondition
    refine ⟨condition, names, EStateM.ofExcept_eq_ok_iff.mpr ⟨hcondition, rfl⟩, ?_⟩
    refine EStateM.bind_eq_ok_iff.mpr ⟨body, between, hbody, ?_⟩
    rcases h with ⟨htail, otherwise, hotherwise, rfl⟩ | ⟨more, chained, htail, hchained, rfl⟩
    · rw [htail]
      exact EStateM.bind_of_ok hotherwise
    · rw [htail]
      exact EStateM.bind_of_ok hchained

theorem program_of_groupLines {lines : List SourceLine} {groups : List Group}
    (h : groupLines lines = .ok groups) : program lines = statements groups := by
  rw [program, h]
  rfl

theorem program_of_groupLines_error {lines : List SourceLine} {fault : Fault ParseCause}
    (h : groupLines lines = .error fault) : program lines names = .error fault names := by
  rw [program, h]
  rfl

/-- A program is the statements of the groups of its lines. -/
theorem program_eq_ok_iff_groups {lines : List SourceLine} {p : Program} :
    program lines names = .ok p after ↔
      ∃ groups, groupLines lines = .ok groups ∧ statements groups names = .ok p after := by
  cases hgroups : groupLines lines with
  | ok groups =>
      rw [program_of_groupLines hgroups]
      simp
  | error fault =>
      rw [program_of_groupLines_error hgroups]
      simp

end Parse

variable {lines : List SourceLine} {p : Program} {names : List String}

theorem parse_of_program_ok (h : Parse.program lines [] = .ok p names) : parse lines = .ok p := by
  have hrun : (Parse.program lines).run [] = .ok p names := h
  rw [parse, hrun]

theorem parse_of_program_error {fault : Fault ParseCause}
    (h : Parse.program lines [] = .error fault names) : parse lines = .error fault := by
  have hrun : (Parse.program lines).run [] = .error fault names := h
  rw [parse, hrun]

theorem exists_program_of_parse (h : parse lines = .ok p) :
    ∃ names, Parse.program lines [] = .ok p names := by
  cases hread : Parse.program lines [] with
  | ok q names =>
      rw [parse_of_program_ok hread] at h
      cases h
      exact ⟨names, rfl⟩
  | error fault names =>
      rw [parse_of_program_error hread] at h
      contradiction

end LineScript
