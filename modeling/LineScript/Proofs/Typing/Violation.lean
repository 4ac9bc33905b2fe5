import LineScript.Proofs.Typing.Agreement

/-!
# LineScript.Proofs.Typing.Violation

Which fault the check reports.  A node violates its rule when the kinds of what is right
below it are not all known and accepted.  The check goes through the nodes in the order of
the source, so that it reports the first violation, wherever it stands.

* `Expr.violation?_eq_some_iff` — one node against its rule;
* `Program.check_reports_first` — a whole program.
-/

namespace LineScript

namespace Expr

/-- The node violates the rule of its operator or its keyword, which the cause names. -/
inductive Violates : Expr → CheckCause → Prop where
  | not (line : Nat) {operand : Expr}
      (h : ¬∃ k, operand.kind? = some k ∧ k.mayBeBool = true) :
      Violates (.not line operand) (.operatorArguments .not)
  | binary (line : Nat) {op : BinaryOp} {left right : Expr}
      (h : ¬∃ l r, left.kind? = some l ∧ right.kind? = some r ∧ op.accepts l r = true) :
      Violates (.binary line op left right) (.operatorArguments (.binary op))
  | assign (line : Nat) (name : String) {value : Expr} (h : value.kind? = none) :
      Violates (.assign line name value) (.operatorArguments .assign)
  | print (line : Nat) {value : Expr}
      (h : ¬∃ k, value.kind? = some k ∧ Keyword.print.accepts k = true) :
      Violates (.print line value) (.keywordArgument .print)
  | branch (line : Nat) {condition : Expr} (body : List Expr) (otherwise : Option (List Expr))
      (h : ¬∃ k, condition.kind? = some k ∧ Keyword.ifTrue.accepts k = true) :
      Violates (.branch line condition body otherwise) (.keywordArgument .ifTrue)
  | loop (line : Nat) (name : Option String) {range : Expr} (body : List Expr)
      (h : ¬∃ k, range.kind? = some k ∧ Keyword.forEach.accepts k = true) :
      Violates (.loop line name range body) (.keywordArgument .forEach)

variable {e : Expr} {cause : CheckCause} {fault : Fault CheckCause}

/-- A test of a kind that may be missing refuses with its cause. -/
theorem refused_iff {kind : Option Kind} {accepts : Kind → Bool} {refusal : CheckCause} :
    (if kind.any accepts then none else some refusal) = some cause ↔
      (¬∃ k, kind = some k ∧ accepts k = true) ∧ refusal = cause := by
  rw [Option.ite_none_left_eq_some, Option.any_eq_true, Option.some.injEq]

/-- The check of one node finds its violation. -/
theorem violation?_eq_some_iff : e.violation? = some cause ↔ e.Violates cause := by
  cases e with
  | literal line value =>
      constructor
      · intro h
        contradiction
      · intro h
        cases h
  | var line name =>
      constructor
      · intro h
        contradiction
      · intro h
        cases h
  | not line operand =>
      rw [violation?, refused_iff]
      constructor
      · rintro ⟨h, rfl⟩
        exact .not line h
      · intro h
        cases h with
        | not _ h => exact ⟨h, rfl⟩
  | binary line op left right =>
      rw [violation?, refused_iff]
      simp only [Option.any_eq_true]
      have hkinds : (∃ l, left.kind? = some l ∧ ∃ r, right.kind? = some r ∧ op.accepts l r = true) ↔
          ∃ l r, left.kind? = some l ∧ right.kind? = some r ∧ op.accepts l r = true := by
        simp only [exists_and_left]
      rw [hkinds]
      constructor
      · rintro ⟨h, rfl⟩
        exact .binary line h
      · intro h
        cases h with
        | binary _ h => exact ⟨h, rfl⟩
  | assign line name value =>
      rw [violation?, Option.ite_none_left_eq_some, Option.not_isSome_iff_eq_none,
        Option.some.injEq]
      constructor
      · rintro ⟨h, rfl⟩
        exact .assign line name h
      · intro h
        cases h with
        | assign _ _ h => exact ⟨h, rfl⟩
  | print line value =>
      rw [violation?, refused_iff]
      constructor
      · rintro ⟨h, rfl⟩
        exact .print line h
      · intro h
        cases h with
        | print _ h => exact ⟨h, rfl⟩
  | branch line condition body otherwise =>
      rw [violation?, refused_iff]
      constructor
      · rintro ⟨h, rfl⟩
        exact .branch line body otherwise h
      · intro h
        cases h with
        | branch _ _ _ h => exact ⟨h, rfl⟩
  | loop line name range body =>
      rw [violation?, refused_iff]
      constructor
      · rintro ⟨h, rfl⟩
        exact .loop line name body h
      · intro h
        cases h with
        | loop _ _ _ h => exact ⟨h, rfl⟩

theorem checkNode_eq_error_iff :
    e.checkNode = .error fault ↔ e.Violates fault.cause ∧ fault.line = e.line := by
  rw [← violation?_eq_some_iff, checkNode]
  cases e.violation? with
  | none => simp
  | some cause =>
      obtain ⟨cause', line⟩ := fault
      simp [eq_comm]

theorem checkNode_eq_ok_iff_not_violates : e.checkNode = .ok () ↔ ¬∃ cause, e.Violates cause := by
  rw [checkNode_eq_ok_iff, Option.eq_none_iff_forall_ne_some, not_exists]
  exact forall_congr' fun cause => not_congr violation?_eq_some_iff

end Expr

/-- **The check reports exactly the first violation**: a program is accepted if none of its
nodes violates its rule, and otherwise the fault names the operator or keyword, and the
line, of the first node in the order of the source that does. -/
theorem Program.check_reports_first (p : Program) :
    (p.check = .ok () ↔ ∀ node ∈ Expr.nodesAll p, ¬∃ cause, node.Violates cause) ∧
      ∀ fault, p.check = .error fault ↔
        ∃ before node after, Expr.nodesAll p = before ++ node :: after ∧
          (∀ earlier ∈ before, ¬∃ cause, earlier.Violates cause) ∧
          node.Violates fault.cause ∧ fault.line = node.line := by
  simp only [check, Expr.checkAll_eq_forM, Except.forM_eq_ok_iff, Except.forM_eq_error_iff,
    Expr.checkNode_eq_ok_iff_not_violates, Expr.checkNode_eq_error_iff, implies_true, and_self]

/-- The second branch is visited before the loop after it, and the first one holds no
violation. -/
example :
    Program.check
      [.branch 1 (.var 1 "a") [.print 2 (.literal 2 (.int 1))]
        (some [.print 4 (.not 4 (.literal 4 (.int 1)))]),
      .loop 6 none (.var 6 "a") []] = .error ⟨.operatorArguments .not, 4⟩ := rfl

end LineScript
