import LineScript.Proofs.Eval.Origin
import Mathlib

/-!
# LineScript.Proofs.Typing.Agreement

The check before a run and the run itself.  The tables of kinds and the operators
were written apart; here they are compared, operator by operator, and then over
whole trees.

* `Expr.check_eq_forM` — the check goes through the nodes in the order of the
  source and stops at the first violation;
* `Program.check_sound` — what an accepted program can still get wrong about
  kinds, it gets wrong at a variable;
* `Expr.check_error_iff_of_eval` — what has a value and is rejected all the same.
-/

namespace LineScript

/-! ## values and kinds -/

namespace Value

variable {v : Value}

theorem mayBeScalar_kind_iff : v.kind.mayBeScalar = true ↔ ∃ n, v.number = .ok n := by
  cases v with
  | scalar s => cases s <;> simp [kind, Scalar.kind, Kind.mayBeScalar, number]
  | array items => simp [kind, Kind.mayBeScalar, number]

theorem mayBeBool_kind_iff : v.kind.mayBeBool = true ↔ ∃ b, v.toBool = .ok b := by
  cases v with
  | scalar s => cases s <;> simp [kind, Scalar.kind, Kind.mayBeBool, toBool]
  | array items => simp [kind, Kind.mayBeBool, toBool]

theorem mayBeArray_kind_iff : v.kind.mayBeArray = true ↔ ∃ items, v.toArray = .ok items := by
  cases v with
  | scalar s => cases s <;> simp [kind, Scalar.kind, Kind.mayBeArray, toArray]
  | array items => simp [kind, Kind.mayBeArray, toArray]

variable {cause : EvalCause}

theorem eq_notScalar_of_number (h : v.number = .error cause) : cause = .notScalar := by
  cases v with
  | scalar s => contradiction
  | array items => cases h; rfl

theorem eq_expectedBool_of_toBool (h : v.toBool = .error cause) : cause = .expectedBool v.kind := by
  unfold toBool at h
  split at h
  · contradiction
  · cases h; rfl

theorem eq_expectedArray_of_toArray (h : v.toArray = .error cause) :
    cause = .expectedArray v.kind := by
  unfold toArray at h
  split at h
  · contradiction
  · cases h; rfl

/-- The value cannot stand for a number, or is no truth value, or no array, and
the cause says so. -/
def Refuses (v : Value) (cause : EvalCause) : Prop :=
  v.number = .error cause ∨ v.toBool = .error cause ∨ v.toArray = .error cause

/-- There are three things a value can fail to be. -/
theorem Refuses.cause_cases (h : v.Refuses cause) :
    cause = .notScalar ∨ (∃ k, cause = .expectedBool k) ∨ ∃ k, cause = .expectedArray k := by
  rcases h with h | h | h
  · exact .inl (eq_notScalar_of_number h)
  · exact .inr (.inl ⟨_, eq_expectedBool_of_toBool h⟩)
  · exact .inr (.inr ⟨_, eq_expectedArray_of_toArray h⟩)

theorem Refuses.ne_statementAsValue (h : v.Refuses cause) :
    cause ≠ .statementAsValue := by
  rintro rfl
  simpa using h.cause_cases

theorem toBool_of_negate (h : v.negate = .error cause) :
    v.toBool = .error cause := by
  rcases Except.bind_eq_error_iff.mp h with h | ⟨b, -, h⟩
  · exact h
  · contradiction

end Value

/-! ## operators and their tables -/

/-- Whether a run stops because a value is not of the kind that is needed, or
because a statement has no value at all. -/
def EvalCause.isMismatch : EvalCause → Bool
  | statementAsValue | notArithmetic _ | notScalar | expectedBool _ | expectedArray _ => true
  | unknownVariable _ | emptyRange | rangeTooLarge .. | overflow | divisionByZero | output _ => false

namespace BinaryOp

variable {op : BinaryOp} {l r v : Value} {cause : EvalCause}

/-- Arithmetic fails for its result only. -/
theorem arithmetic_error {m n : Number} (hop : ∀ a b, (op.integerResult? a b).isSome = true)
    (h : op.arithmetic m n = .error cause) : cause.isMismatch = false := by
  unfold arithmetic at h
  split at h
  · cases h; rfl
  · split at h
    · next hnone => simpa [hnone] using hop m.toInt n.toInt
    · split at h
      · contradiction
      · cases h; rfl

theorem rangeItems_error {m n : Number} {inclusive : Bool}
    (h : rangeItems m n inclusive = .error cause) : cause.isMismatch = false := by
  unfold rangeItems at h
  split at h
  · cases h; rfl
  · dsimp only at h
    split at h
    · cases h; rfl
    · contradiction

/-- Whether the operator works on two numbers, which each of its operands stands for. -/
def takesNumbers : BinaryOp → Bool
  | and | or | xor | isIn => false
  | _ => true

/-- Such an operator reads both numbers and then fails for its result only. -/
theorem exists_apply_eq (hop : op.takesNumbers = true) :
    ∃ f : Number → Number → Except EvalCause Value,
      (∀ l r, op.apply l r = do f (← Value.number l) (← Value.number r)) ∧
        ∀ m n cause, f m n = .error cause → cause.isMismatch = false := by
  cases op
  case add | sub | mul | div =>
    refine ⟨fun m n => do return .int (← arithmetic _ m n), fun l r => rfl, fun m n cause h => ?_⟩
    rcases Except.bind_eq_error_iff.mp h with h | ⟨z, -, h⟩
    · exact arithmetic_error (by simp [integerResult?]) h
    · contradiction
  case equal | greater | greaterEqual | less | lessEqual =>
    exact ⟨fun m n => .ok (.bool (holds _ m n)), fun l r => rfl, fun m n cause h => by contradiction⟩
  case range | rangeInclusive =>
    refine ⟨fun m n => do return .array (← rangeItems m n _), fun l r => rfl, fun m n cause h => ?_⟩
    rcases Except.bind_eq_error_iff.mp h with h | ⟨items, -, h⟩
    · exact rangeItems_error h
    · contradiction
  all_goals contradiction

/-- It fails for an array in the place of a number, or for its result. -/
theorem cause_of_apply (hop : op.takesNumbers = true) (h : op.apply l r = .error cause) :
    l.number = .error cause ∨ r.number = .error cause ∨ cause.isMismatch = false := by
  obtain ⟨f, happly, hf⟩ := exists_apply_eq hop
  rw [happly] at h
  rcases Except.bind_eq_error_iff.mp h with h | ⟨m, -, h⟩
  · exact .inl h
  rcases Except.bind_eq_error_iff.mp h with h | ⟨n, -, h⟩
  · exact .inr (.inl h)
  · exact .inr (.inr (hf m n cause h))

/-- Whether the left operand settles the result by itself, so that the right one
is not looked at: `false` settles `and`, and `true` settles `or`. -/
def decidedBy : BinaryOp → Value → Bool
  | and, .scalar (.bool b) => !b
  | or, .scalar (.bool b) => b
  | _, _ => false

theorem eq_and_or_of_decidedBy (h : op.decidedBy l = true) :
    (op = and ∨ op = or) ∧ l.kind = .bool := by
  unfold decidedBy at h
  split at h
  · exact ⟨.inl rfl, rfl⟩
  · exact ⟨.inr rfl, rfl⟩
  · contradiction

/-- A left operand that settles `and` or `or` is the result, and otherwise the right
one is. -/
theorem apply_of_toBool {b : Bool} (hop : op = and ∨ op = or) (hb : l.toBool = .ok b) :
    op.apply l r =
      if op.decidedBy l then .ok (.bool b) else do return .bool (← r.toBool) := by
  obtain rfl := Value.toBool_eq_ok_iff.mp hb
  rcases hop with rfl | rfl <;> cases b <;> rfl

/-- The result of an operator is of the kind its table says. -/
theorem kind_of_apply (h : op.apply l r = .ok v) : v.kind = op.resultKind := by
  cases op
  case add | sub | mul | div =>
    obtain ⟨m, -, h⟩ := Except.bind_eq_ok_iff.mp h
    obtain ⟨n, -, h⟩ := Except.bind_eq_ok_iff.mp h
    obtain ⟨z, -, h⟩ := Except.bind_eq_ok_iff.mp h
    cases h
    rfl
  case equal | greater | greaterEqual | less | lessEqual | xor | isIn =>
    obtain ⟨m, -, h⟩ := Except.bind_eq_ok_iff.mp h
    obtain ⟨n, -, h⟩ := Except.bind_eq_ok_iff.mp h
    cases h
    rfl
  case and | or =>
    obtain ⟨b, hb, -⟩ := Except.bind_eq_ok_iff.mp h
    rw [apply_of_toBool (by simp) hb] at h
    split at h
    · cases h
      rfl
    · obtain ⟨c, -, h⟩ := Except.bind_eq_ok_iff.mp h
      cases h
      rfl
  case range | rangeInclusive =>
    obtain ⟨m, -, h⟩ := Except.bind_eq_ok_iff.mp h
    obtain ⟨n, -, h⟩ := Except.bind_eq_ok_iff.mp h
    obtain ⟨items, -, h⟩ := Except.bind_eq_ok_iff.mp h
    cases h
    rfl

/-- What an operator fails for: one of its operands, or its result. -/
theorem refuses_of_apply (h : op.apply l r = .error cause) :
    l.Refuses cause ∨ r.Refuses cause ∨ cause.isMismatch = false := by
  by_cases hop : op.takesNumbers = true
  · rcases cause_of_apply hop h with h | h | h
    · exact .inl (.inl h)
    · exact .inr (.inl (.inl h))
    · exact .inr (.inr h)
  cases op
  case and | or =>
    rcases Except.bind_eq_error_iff.mp h with hleft | ⟨b, hb, -⟩
    · exact .inl (.inr (.inl hleft))
    rw [apply_of_toBool (by simp) hb] at h
    split at h
    · contradiction
    rcases Except.bind_eq_error_iff.mp h with h | ⟨c, -, h⟩
    · exact .inr (.inl (.inr (.inl h)))
    · contradiction
  case xor =>
    rcases Except.bind_eq_error_iff.mp h with h | ⟨b, -, h⟩
    · exact .inl (.inr (.inl h))
    rcases Except.bind_eq_error_iff.mp h with h | ⟨c, -, h⟩
    · exact .inr (.inl (.inr (.inl h)))
    · contradiction
  case isIn =>
    rcases Except.bind_eq_error_iff.mp h with h | ⟨m, -, h⟩
    · exact .inl (.inl h)
    rcases Except.bind_eq_error_iff.mp h with h | ⟨items, -, h⟩
    · exact .inr (.inl (.inr (.inr h)))
    · contradiction
  all_goals exact absurd rfl hop

/-- Two numbers may be of any kind that stands for one. -/
theorem accepts_of_takesNumbers (hop : op.takesNumbers = true) (k k' : Kind) :
    op.accepts k k' = (k.mayBeScalar && k'.mayBeScalar) := by
  cases op
  case and | or | xor | isIn => contradiction
  all_goals rfl

/-- An operator never fails for the kinds it accepts. -/
theorem isMismatch_of_accepts (hkinds : op.accepts l.kind r.kind = true)
    (h : op.apply l r = .error cause) : cause.isMismatch = false := by
  by_cases hop : op.takesNumbers = true
  · rw [accepts_of_takesNumbers hop, Bool.and_eq_true, Value.mayBeScalar_kind_iff,
      Value.mayBeScalar_kind_iff] at hkinds
    obtain ⟨⟨m, hm⟩, ⟨n, hn⟩⟩ := hkinds
    rcases cause_of_apply hop h with h | h | h
    · rw [hm] at h
      contradiction
    · rw [hn] at h
      contradiction
    · exact h
  cases op <;> simp only [accepts, Bool.and_eq_true] at hkinds
  case and | or =>
    obtain ⟨b, hb⟩ := Value.mayBeBool_kind_iff.mp hkinds.1
    obtain ⟨c, hc⟩ := Value.mayBeBool_kind_iff.mp hkinds.2
    rw [apply, Except.bind_of_ok hb, hc] at h
    cases b <;> contradiction
  case xor =>
    obtain ⟨b, hb⟩ := Value.mayBeBool_kind_iff.mp hkinds.1
    obtain ⟨c, hc⟩ := Value.mayBeBool_kind_iff.mp hkinds.2
    rw [apply, Except.bind_of_ok hb, Except.bind_of_ok hc] at h
    contradiction
  case isIn =>
    obtain ⟨m, hm⟩ := Value.mayBeScalar_kind_iff.mp hkinds.1
    obtain ⟨items, hitems⟩ := Value.mayBeArray_kind_iff.mp hkinds.2
    rw [apply, Except.bind_of_ok hm, Except.bind_of_ok hitems] at h
    contradiction
  all_goals exact absurd rfl hop

/-- An operator has a result only for kinds it accepts, unless it is settled by
its left operand. -/
theorem accepts_or_decidedBy (h : op.apply l r = .ok v) :
    op.accepts l.kind r.kind = true ∨ op.decidedBy l = true := by
  by_cases hop : op.takesNumbers = true
  · obtain ⟨f, happly, -⟩ := exists_apply_eq hop
    rw [happly] at h
    obtain ⟨m, hm, h⟩ := Except.bind_eq_ok_iff.mp h
    obtain ⟨n, hn, -⟩ := Except.bind_eq_ok_iff.mp h
    exact .inl (by simp [accepts_of_takesNumbers hop, Value.mayBeScalar_kind_iff, hm, hn])
  cases op
  case and | or =>
    obtain ⟨b, hb, -⟩ := Except.bind_eq_ok_iff.mp h
    rw [apply_of_toBool (by simp) hb] at h
    split at h
    · next hdecided => exact .inr hdecided
    · obtain ⟨c, hc, -⟩ := Except.bind_eq_ok_iff.mp h
      exact .inl (by simp [accepts, Value.mayBeBool_kind_iff, hb, hc])
  case xor =>
    obtain ⟨b, hb, h⟩ := Except.bind_eq_ok_iff.mp h
    obtain ⟨c, hc, -⟩ := Except.bind_eq_ok_iff.mp h
    exact .inl (by simp [accepts, Value.mayBeBool_kind_iff, hb, hc])
  case isIn =>
    obtain ⟨m, hm, h⟩ := Except.bind_eq_ok_iff.mp h
    obtain ⟨items, hitems, -⟩ := Except.bind_eq_ok_iff.mp h
    exact .inl (by simp [accepts, Value.mayBeScalar_kind_iff, Value.mayBeArray_kind_iff, hm, hitems])
  all_goals exact absurd rfl hop

/-- A variable is accepted wherever a value of some kind is. -/
theorem accepts_ite_unknown {k k' : Kind} (b b' : Bool) (h : op.accepts k k' = true) :
    op.accepts (if b then .unknown else k) (if b' then .unknown else k') = true := by
  cases op <;> cases b <;> cases b' <;>
    simp_all [accepts, Kind.mayBeScalar, Kind.mayBeBool, Kind.mayBeArray]

end BinaryOp

/-! ## the check, node by node -/

namespace Expr

theorem checkNode_eq_ok_iff {e : Expr} : e.checkNode = .ok () ↔ e.violation? = none := by
  unfold checkNode
  cases e.violation? <;> simp

mutual

/-- The check goes through the nodes in order and stops at the first violation. -/
theorem check_eq_forM : ∀ e, check e = forM e.nodes checkNode
  | .literal line value => rfl
  | .var line name => rfl
  | .not line operand => by
      rw [check, check_eq_forM operand, nodes, List.forM_cons]
  | .binary line op left right => by
      rw [check, check_eq_forM left, check_eq_forM right, nodes, List.forM_cons, List.forM_append]
  | .assign line name value => by
      rw [check, check_eq_forM value, nodes, List.forM_cons]
  | .print line value => by
      rw [check, check_eq_forM value, nodes, List.forM_cons]
  | .branch line condition body none => by
      rw [check, check_eq_forM condition, checkAll_eq_forM body, nodes, List.forM_cons,
        List.forM_append, List.forM_append, bind_assoc]
      rfl
  | .branch line condition body (some other) => by
      rw [check, check_eq_forM condition, checkAll_eq_forM body, nodes, List.forM_cons,
        List.forM_append, List.forM_append, ← checkAll_eq_forM other, bind_assoc]
  | .loop line name range body => by
      rw [check, check_eq_forM range, checkAll_eq_forM body, nodes, List.forM_cons,
        List.forM_append]

theorem checkAll_eq_forM : ∀ es, checkAll es = forM (nodesAll es) checkNode
  | [] => rfl
  | e :: es => by
      rw [checkAll, check_eq_forM e, checkAll_eq_forM es, nodesAll, List.forM_append]

end

/-- A tree is accepted exactly if none of its nodes is a violation. -/
theorem check_eq_ok_iff {e : Expr} :
    e.check = .ok () ↔ ∀ node ∈ e.nodes, node.violation? = none := by
  simp only [check_eq_forM, Except.forM_eq_ok_iff, checkNode_eq_ok_iff]

/-! ## kinds of operands -/

/-- Whether a tree is a variable. -/
def isVar : Expr → Bool
  | var .. => true
  | _ => false

/-- Whether a node is an operation with a variable right below it, or a branch on
a variable. -/
def testsVar : Expr → Bool
  | not _ operand => operand.isVar
  | binary _ _ left right => left.isVar || right.isVar
  | branch _ condition _ _ => condition.isVar
  | _ => false

variable {scope : Scope} {e : Expr} {v : Value}

/-- The value of an operand is of the kind that is read off it, unless it is a
variable. -/
theorem kind?_of_eval (h : e.eval scope = .ok v) :
    e.kind? = some (if e.isVar then .unknown else v.kind) := by
  cases e with
  | literal line value => cases h; rfl
  | var line name => rfl
  | not line operand =>
      obtain ⟨value, -, h⟩ := Except.bind_eq_ok_iff.mp h
      obtain ⟨b, -, h⟩ := Except.bind_eq_ok_iff.mp (Except.mapError_eq_ok_iff.mp h)
      cases h
      rfl
  | binary line op left right =>
      obtain ⟨l, -, h⟩ := Except.bind_eq_ok_iff.mp h
      obtain ⟨r, -, h⟩ := Except.bind_eq_ok_iff.mp h
      rw [kind?, ← BinaryOp.kind_of_apply (Except.mapError_eq_ok_iff.mp h)]
      rfl
  | _ => contradiction

/-! ## accepted nodes -/

variable {node : Expr} {fault : Fault EvalCause}

/-- Below an accepted node there is no statement in the place of an operand. -/
theorem kind?_isSome_of_violation?_eq_none (hnode : node.violation? = none) :
    ∀ operand ∈ node.operands, operand.kind?.isSome = true := by
  intro operand hmem
  cases hkind : operand.kind? with
  | some k => rfl
  | none =>
      cases node <;> simp [operands] at hmem
      case binary =>
        rcases hmem with rfl | rfl <;> simp [violation?, hkind] at hnode
      all_goals
        subst hmem
        simp [violation?, hkind] at hnode

theorem binary_accepts {line : Nat} {op : BinaryOp} {left right : Expr} {l r : Kind}
    (hnode : (binary line op left right).violation? = none) (hl : left.kind? = some l)
    (hr : right.kind? = some r) : op.accepts l r = true := by
  simpa [violation?, hl, hr] using hnode

/-- What a node can fail for: a statement among its operands, or a value that is not what is
needed, or something else than a kind. -/
theorem cause_cases_of_raises (h : Raises scope node fault) :
    (fault.cause = .statementAsValue ∧ ∃ operand ∈ node.operands, operand.kind? = none) ∨
      (∃ v : Value, v.Refuses fault.cause) ∨ fault.cause.isMismatch = false := by
  cases h with
  | misplaced hmem hkind => exact .inl ⟨rfl, _, hmem, hkind⟩
  | not line h hnegate => exact .inr (.inl ⟨_, .inr (.inl (Value.toBool_of_negate hnegate))⟩)
  | binary line hl hr happly =>
      rcases BinaryOp.refuses_of_apply happly with h | h | h
      · exact .inr (.inl ⟨_, h⟩)
      · exact .inr (.inl ⟨_, h⟩)
      · exact .inr (.inr h)
  | branch line body otherwise h hbool => exact .inr (.inl ⟨_, .inr (.inl hbool)⟩)
  | loop line name body h harray => exact .inr (.inl ⟨_, .inr (.inr harray)⟩)
  | _ => exact .inr (.inr rfl)

/-- A statement without a value is at fault only where an operand is one. -/
theorem misplaced_of_raises (h : Raises scope node fault)
    (hcause : fault.cause = .statementAsValue) : ∃ operand ∈ node.operands, operand.kind? = none := by
  rcases cause_cases_of_raises h with ⟨-, hoperand⟩ | ⟨v, hv⟩ | hother
  · exact hoperand
  · exact absurd hcause hv.ne_statementAsValue
  · rw [hcause] at hother
    contradiction

/-- Only arithmetic computes a number from two numbers, and nothing else tries to. -/
theorem ne_notArithmetic_of_raises (h : Raises scope node fault) (op : BinaryOp) :
    fault.cause ≠ .notArithmetic op := by
  intro hcause
  rcases cause_cases_of_raises h with ⟨hmisplaced, -⟩ | ⟨v, hv⟩ | hother
  · rw [hcause] at hmisplaced
    contradiction
  · simpa [hcause] using hv.cause_cases
  · rw [hcause] at hother
    contradiction

/-- An accepted node that fails for a kind tests a variable. -/
theorem testsVar_of_raises (hnode : node.violation? = none) (h : Raises scope node fault)
    (hmismatch : fault.cause.isMismatch = true) :
    node.testsVar = true ∧ node.line = fault.line := by
  cases h with
  | misplaced hmem hkind =>
      have hsome := kind?_isSome_of_violation?_eq_none hnode _ hmem
      simp [hkind] at hsome
  | @not line operand value cause h hnegate =>
      cases hvar : operand.isVar with
      | true => exact ⟨hvar, rfl⟩
      | false =>
          have hbool := Value.toBool_of_negate hnegate
          simp [violation?, kind?_of_eval h, hvar, Value.mayBeBool_kind_iff, hbool] at hnode
  | @binary line op left right l r cause hl hr happly =>
      cases hvar : (binary line op left right).testsVar with
      | true => exact ⟨rfl, rfl⟩
      | false =>
          have hkinds := binary_accepts hnode (kind?_of_eval hl) (kind?_of_eval hr)
          obtain ⟨hleft, hright⟩ := Bool.or_eq_false_iff.mp hvar
          rw [hleft, hright] at hkinds
          have hfine := BinaryOp.isMismatch_of_accepts hkinds happly
          simp [hfine] at hmismatch
  | @branch line condition body otherwise value cause h hbool =>
      cases hvar : condition.isVar with
      | true => exact ⟨hvar, rfl⟩
      | false =>
          simp [violation?, kind?_of_eval h, hvar, Keyword.accepts, Value.mayBeBool_kind_iff,
            hbool] at hnode
  | @loop line name range body value cause h harray =>
      -- A variable is not accepted here, so the kind of the range is that of its value.
      cases hvar : range.isVar with
      | true => simp [violation?, kind?_of_eval h, hvar, Keyword.accepts] at hnode
      | false =>
          have hkind : value.kind = .array := by
            simpa [violation?, kind?_of_eval h, hvar, Keyword.accepts] using hnode
          obtain ⟨items, hitems⟩ := Value.mayBeArray_kind_iff.mp (by rw [hkind]; rfl)
          rw [hitems] at harray
          contradiction
  | _ => contradiction

/-! ## trees that have a value -/

/-- Whatever is below a tree that has a value has a value too. -/
theorem exists_eval_of_mem_nodes (h : e.eval scope = .ok v) :
    ∀ node ∈ e.nodes, ∃ w, node.eval scope = .ok w := by
  induction e using Expr.eval.induct generalizing v with
  | case1 line value => simpa [nodes] using ⟨v, h⟩
  | case2 line name => simpa [nodes] using ⟨v, h⟩
  | case3 line operand ih =>
      obtain ⟨value, hvalue, -⟩ := Except.bind_eq_ok_iff.mp h
      rw [nodes, List.forall_mem_cons]
      exact ⟨⟨v, h⟩, ih hvalue⟩
  | case4 line op left right ihl ihr =>
      obtain ⟨l, hl, hrest⟩ := Except.bind_eq_ok_iff.mp h
      obtain ⟨r, hr, -⟩ := Except.bind_eq_ok_iff.mp hrest
      rw [nodes, List.forall_mem_cons, List.forall_mem_append]
      exact ⟨⟨v, h⟩, ihl hl, ihr hr⟩
  | _ => contradiction

/-- A node that has a value and is rejected all the same is `and` or `or`, settled
by its left operand, with a right operand that is never a truth value. -/
theorem decidedBy_of_violation (h : node.eval scope = .ok v) (hnode : node.violation? ≠ none) :
    ∃ line op left right l, node = .binary line op left right ∧ left.eval scope = .ok l ∧
      op.decidedBy l = true ∧ right.kind?.any Kind.mayBeBool = false := by
  cases node with
  | literal line value => exact absurd rfl hnode
  | var line name => exact absurd rfl hnode
  | not line operand =>
      obtain ⟨value, hvalue, h⟩ := Except.bind_eq_ok_iff.mp h
      obtain ⟨b, hb, -⟩ := Except.bind_eq_ok_iff.mp (Except.mapError_eq_ok_iff.mp h)
      have hbool : Kind.mayBeBool (if operand.isVar then .unknown else value.kind) = true := by
        split
        · rfl
        · exact Value.mayBeBool_kind_iff.mpr ⟨b, hb⟩
      refine absurd ?_ hnode
      simp [violation?, kind?_of_eval hvalue, hbool]
  | binary line op left right =>
      obtain ⟨l, hl, h⟩ := Except.bind_eq_ok_iff.mp h
      obtain ⟨r, hr, h⟩ := Except.bind_eq_ok_iff.mp h
      rcases BinaryOp.accepts_or_decidedBy (Except.mapError_eq_ok_iff.mp h) with hkinds | hdecided
      · have hkinds := BinaryOp.accepts_ite_unknown left.isVar right.isVar hkinds
        refine absurd ?_ hnode
        simp [violation?, kind?_of_eval hl, kind?_of_eval hr, hkinds]
      · refine ⟨line, op, left, right, l, rfl, hl, hdecided, ?_⟩
        obtain ⟨hop, hlkind⟩ := BinaryOp.eq_and_or_of_decidedBy hdecided
        rcases hop with rfl | rfl <;> cases hvar : left.isVar <;>
          simpa [violation?, kind?_of_eval hl, kind?_of_eval hr, hvar, hlkind, BinaryOp.accepts,
            Kind.mayBeBool] using hnode
  | _ => contradiction

/-- **What has a value and is rejected**: among the trees that have a value, the
check rejects exactly those that hold an `and` or `or` that is settled by its
left operand and whose right operand is never a truth value. -/
theorem check_error_iff_of_eval (h : e.eval scope = .ok v) :
    (∃ fault, e.check = .error fault) ↔
      ∃ line op left right l, .binary line op left right ∈ e.nodes ∧ left.eval scope = .ok l ∧
        op.decidedBy l = true ∧ right.kind?.any Kind.mayBeBool = false := by
  constructor
  · rintro ⟨fault, hfault⟩
    have hviolation : ¬∀ node ∈ e.nodes, node.violation? = none := by
      rw [← check_eq_ok_iff, hfault]
      simp
    obtain ⟨node, hmem, hnode⟩ : ∃ node ∈ e.nodes, node.violation? ≠ none := by
      simpa using hviolation
    obtain ⟨w, hw⟩ := exists_eval_of_mem_nodes h node hmem
    obtain ⟨line, op, left, right, l, rfl, hrest⟩ := decidedBy_of_violation hw hnode
    exact ⟨line, op, left, right, l, hmem, hrest⟩
  · rintro ⟨line, op, left, right, l, hmem, hl, hdecided, hright⟩
    have hnode : (binary line op left right).violation? ≠ none := by
      obtain ⟨hop, -⟩ := BinaryOp.eq_and_or_of_decidedBy hdecided
      cases hk : right.kind? with
      | none => simp [violation?, hk]
      | some k => rcases hop with rfl | rfl <;> simp_all [violation?, BinaryOp.accepts]
    cases hcheck : e.check with
    | ok u => exact absurd (check_eq_ok_iff.mp hcheck _ hmem) hnode
    | error fault => exact ⟨fault, rfl⟩

/-- `not x or 5` has the value `false` when `x` is `true`, and it is rejected. -/
theorem check_error_not_or :
    let scope : Scope := ⟨[.assign 1 "x" (.bool true)], []⟩
    let settled : Expr := .not 2 (.binary 2 .or (.var 2 "x") (.literal 2 (.int 5)))
    settled.eval scope = .ok (.bool false) ∧ ∃ fault, settled.check = .error fault := by
  intro scope settled
  have heval : settled.eval scope = .ok (.bool false) := rfl
  have hleft : (Expr.var 2 "x").eval scope = .ok (.bool true) := rfl
  refine ⟨heval, (check_error_iff_of_eval heval).mpr ?_⟩
  exact ⟨2, .or, .var 2 "x", .literal 2 (.int 5), .bool true, by simp [settled, nodes], hleft, rfl,
    rfl⟩

/-- `false and 5` is rejected, and yet it has a value. -/
theorem false_and_five_rejected_with_value :
    let settled : Expr := .binary 1 .and (.literal 1 (.bool false)) (.literal 1 (.int 5))
    settled.check = .error ⟨.operatorArguments (.binary .and), 1⟩ ∧
      ∀ scope, settled.eval scope = .ok (.bool false) :=
  ⟨rfl, fun _ => rfl⟩

end Expr

/-! ## accepted programs -/

namespace Program

variable {p : Program}

theorem violation?_eq_none (h : p.check = .ok ()) :
    ∀ node ∈ Expr.nodesAll p, node.violation? = none := by
  rw [check, Expr.checkAll_eq_forM, Except.forM_eq_ok_iff] at h
  exact fun node hnode => Expr.checkNode_eq_ok_iff.mp (h node hnode)

/-- **Accepted programs go wrong only at variables**: when a run of an accepted
program stops because of a kind, one of its nodes stopped it, on the line of the
fault, and that node is an operation with a variable right below it or a branch
on a variable.  No other node of the program ever fails for a kind, and no
statement is ever taken for a value. -/
theorem check_sound {σ : Type} [Sink σ] (hcheck : p.check = .ok ()) :
    (∀ (history : History) (out : σ) fault after,
      Transcript.evaluate p ⟨history, out⟩ = .error fault after →
        fault.cause ≠ .statementAsValue ∧
        (fault.cause.isMismatch = true → ∃ node ∈ Expr.nodesAll p,
          node.line = fault.line ∧ node.testsVar = true ∧ ∃ scope, Raises scope node fault)) ∧
    ∀ node ∈ Expr.nodesAll p, node.testsVar = false →
      ∀ scope fault, Raises scope node fault → fault.cause.isMismatch = false := by
  have hnodes := violation?_eq_none hcheck
  constructor
  · intro history out fault after hrun
    obtain ⟨node, hmem, scope, hraises⟩ := Transcript.raisedIn_of_evaluate hrun
    constructor
    · intro hcause
      obtain ⟨operand, hoperand, hkind⟩ := Expr.misplaced_of_raises hraises hcause
      have hsome := Expr.kind?_isSome_of_violation?_eq_none (hnodes node hmem) operand hoperand
      simp [hkind] at hsome
    · intro hmismatch
      obtain ⟨htests, hline⟩ := Expr.testsVar_of_raises (hnodes node hmem) hraises hmismatch
      exact ⟨node, hmem, hline, htests, scope, hraises⟩
  · intro node hmem htests scope fault hraises
    cases hmismatch : fault.cause.isMismatch with
    | false => rfl
    | true =>
        obtain ⟨hvar, -⟩ := Expr.testsVar_of_raises (hnodes node hmem) hraises hmismatch
        rw [htests] at hvar
        contradiction

/-- A range is assigned and then added to: the program is accepted, and it stops at
the sum, whose left operand is a variable. -/
theorem check_sound_added_range :
    let sum : Expr := .binary 2 .add (.var 2 "x") (.literal 2 (.int 1))
    let p : Program := [.assign 1 "x" (.binary 1 .range (.literal 1 (.int 1)) (.literal 1 (.int 3))),
      .print 2 sum]
    p.check = .ok () ∧
      Transcript.evaluate p ⟨[], ({} : Buffer)⟩ =
        .error ⟨.notScalar, 2⟩ ⟨[.assign 1 "x" (.array [1, 2])], {}⟩ ∧
      ∃ node ∈ Expr.nodesAll p, node.line = 2 ∧ node.testsVar = true ∧
        ∃ scope, Raises scope node ⟨.notScalar, 2⟩ := by
  intro sum p
  have hcheck : p.check = .ok () := rfl
  have hrun : Transcript.evaluate p ⟨[], ({} : Buffer)⟩ =
      .error ⟨.notScalar, 2⟩ ⟨[.assign 1 "x" (.array [1, 2])], {}⟩ := by
    simp only [p, sum]
    cbv
  obtain ⟨-, hstopped⟩ := (check_sound hcheck).1 [] _ _ _ hrun
  exact ⟨hcheck, hrun, hstopped rfl⟩

end Program

end LineScript
