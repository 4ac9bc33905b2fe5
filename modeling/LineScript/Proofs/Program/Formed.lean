import LineScript.Proofs.Eval.Range
import LineScript.Proofs.Program.Location

/-!
# LineScript.Proofs.Program.Formed

The shape of what is read.  Reading puts an operand wherever a node takes one, and a range
in the header of every loop.  So some failures of a run never happen to a program that was
read, although it may not have been checked: a statement is never taken for a value, and a
loop always runs over the elements of a range, of which there is at least one.

* `Derives.formed` — the nodes of a program are formed as their lines say;
* `Expr.Canonical.cause_of_eval` — what a range can fail for;
* `shape_never_at_fault` — what never stops a run of what is read.
-/

namespace LineScript

namespace Expr

/-! ## nodes of what is read -/

/-- The node is an operand or takes one, and a loop takes a range. -/
inductive Formed : Expr → Prop where
  | operand {e : Expr} (h : e.Canonical) : Formed e
  | assign (line : Nat) (name : String) {value : Expr} (h : value.Canonical) :
      Formed (.assign line name value)
  | print (line : Nat) {value : Expr} (h : value.Canonical) : Formed (.print line value)
  | branch (line : Nat) {condition : Expr} (body : List Expr) (otherwise : Option (List Expr))
      (h : condition.Canonical) : Formed (.branch line condition body otherwise)
  | loop (line : Nat) (name : Option String) {range : Expr} (body : List Expr)
      (h : range.Canonical) (hrange : range.isRange = true) : Formed (.loop line name range body)

namespace Canonical

variable {e : Expr}

theorem kind?_isSome (h : e.Canonical) : e.kind?.isSome = true := by
  cases h <;> rfl

/-- The nodes of an operand are operands. -/
theorem of_mem_nodes (h : e.Canonical) : ∀ node ∈ e.nodes, node.Canonical := by
  induction h with
  | literal line value => simpa [nodes] using literal line value
  | var line name => simpa [nodes] using var line name
  | not line h ih =>
      rw [nodes, List.forall_mem_cons]
      exact ⟨.not line h, ih⟩
  | binary line hl hr hleft hright hstart ihl ihr =>
      rw [nodes, List.forall_mem_cons, List.forall_mem_append]
      exact ⟨.binary line hl hr hleft hright hstart, ihl, ihr⟩

theorem formed (h : e.Canonical) : ∀ node ∈ e.nodes, node.Formed :=
  fun node hnode => .operand (h.of_mem_nodes node hnode)

end Canonical

/-- Every operand of a node is one. -/
theorem Formed.operands {node : Expr} (h : node.Formed) :
    ∀ operand ∈ node.operands, operand.Canonical := by
  cases h with
  | operand h =>
      cases h with
      | literal line value => simp [Expr.operands]
      | var line name => simp [Expr.operands]
      | not line h => simpa [Expr.operands] using h
      | binary line hl hr => simpa [Expr.operands] using ⟨hl, hr⟩
  | assign line name h => simpa [Expr.operands] using h
  | print line h => simpa [Expr.operands] using h
  | branch line body otherwise h => simpa [Expr.operands] using h
  | loop line name body h hrange => simpa [Expr.operands] using h

end Expr

theorem Parse.LoopHeader.isRange_eq {header range : Expr} {name : Option String}
    (h : LoopHeader header name range) : range.isRange = true := by
  cases h with
  | bare hrange => exact isRange_iff.mpr hrange
  | named _ _ _ hrange => exact isRange_iff.mpr hrange

/-- The nodes of a branch are formed if its parts are. -/
theorem formed_branch (line : Nat) {condition : Expr} {body : List Expr}
    {otherwise : Option (List Expr)} (h : condition.Canonical)
    (hbody : ∀ node ∈ Expr.nodesAll body, node.Formed)
    (htail : ∀ node ∈ Expr.nodesAll (otherwise.getD []), node.Formed) :
    ∀ node ∈ (Expr.branch line condition body otherwise).nodes, node.Formed := by
  rw [Expr.nodes_branch, List.forall_mem_cons, List.forall_mem_append, List.forall_mem_append]
  exact ⟨.branch line body otherwise h, ⟨h.formed, hbody⟩, htail⟩

/-- **The nodes of what is read are formed** as the lines say. -/
theorem Derives.formed {lines : List SourceLine} {phrase : Phrase} (h : Derives lines phrase) :
    ∀ node ∈ phrase.nodes, node.Formed := by
  induction h with
  | @print line _ _ h =>
      have hvalue := Expr.canonical_of_read h
      rw [Phrase.nodes, Expr.nodes, List.forall_mem_cons]
      exact ⟨.print line hvalue, hvalue.formed⟩
  | @assign line name _ _ h =>
      have hvalue := Expr.canonical_of_read h
      rw [Phrase.nodes, Expr.nodes, List.forall_mem_cons]
      exact ⟨.assign line name hvalue, hvalue.formed⟩
  | operation _ h => exact (Expr.canonical_of_read h).formed
  | @branch line _ _ _ _ _ _ h _ _ ihbody ihtail =>
      exact formed_branch line (Expr.canonical_of_read h) ihbody ihtail
  | @loop line last _ _ range name _ p h hheader _ ihbody =>
      have hrange := hheader.canonical (Expr.canonical_of_read h)
      rw [Phrase.nodes, Expr.nodes, List.forall_mem_cons, List.forall_mem_append]
      exact ⟨.loop line name p hrange hheader.isRange_eq, hrange.formed, ihbody⟩
  | nil => simp [Phrase.nodes, Expr.nodesAll]
  | cons _ _ ihfirst ihrest => exact List.forall_mem_append.mpr ⟨ihfirst, ihrest⟩
  | close => simp [Phrase.nodes, Expr.nodesAll]
  | otherwise line last _ ihbody => exact ihbody
  | @chained line _ _ _ _ _ _ h _ _ ihbody ihtail =>
      rw [Phrase.nodes, Option.getD_some, Expr.nodesAll, Expr.nodesAll, List.append_nil]
      exact formed_branch line (Expr.canonical_of_read h) ihbody ihtail

/-! ## ranges -/

namespace BinaryOp

variable {op : BinaryOp} {l r v : Value}

/-- An operator that binds as tightly as a range works on two numbers. -/
theorem takesNumbers_of_bindingPower (hop : range.bindingPower ≤ op.bindingPower) :
    op.takesNumbers = true := by
  cases op
  case and | or | xor | isIn => simp [bindingPower] at hop
  all_goals rfl

/-- A range has elements. -/
theorem exists_items_of_apply (hop : op.isRange = true) (h : op.apply l r = .ok v) :
    ∃ items, v = .array items ∧ items ≠ [] := by
  cases op
  case range | rangeInclusive =>
    obtain ⟨m, -, h⟩ := Except.bind_eq_ok_iff.mp h
    obtain ⟨n, -, h⟩ := Except.bind_eq_ok_iff.mp h
    obtain ⟨items, hitems, h⟩ := Except.bind_eq_ok_iff.mp h
    cases h
    exact ⟨items, rfl, ne_nil_of_rangeItems hitems⟩
  all_goals contradiction

end BinaryOp

namespace Expr

variable {scope : Scope} {e : Expr} {v : Value} {fault : Fault EvalCause}

theorem exists_of_isRange (h : e.isRange = true) :
    ∃ line op left right, e = .binary line op left right ∧ op.isRange = true := by
  cases e with
  | binary line op left right => exact ⟨line, op, left, right, rfl, h⟩
  | _ => contradiction

/-- The operators of a range bind as tightly as the one that builds it. -/
theorem Canonical.le_bindingPower (h : e.Canonical) (hrange : e.isRange = true) {op : BinaryOp}
    (huses : e.Uses op) : BinaryOp.range.bindingPower ≤ op.bindingPower := by
  obtain ⟨line, o, left, right, rfl, ho⟩ := exists_of_isRange hrange
  have hpower : o.bindingPower = BinaryOp.range.bindingPower := by cases o <;> trivial
  cases h with
  | binary _ hl hr hleft hright hstart =>
      rcases uses_binary.mp huses with huses | rfl | huses
      · exact hpower ▸ hleft op huses
      · exact hpower.ge
      · exact hpower ▸ (hright op huses).le

/-- What a range fails for: never for an array that is needed, and for a truth value only
where a truth value is negated. -/
theorem Canonical.cause_of_eval (h : e.Canonical) (hrange : e.isRange = true)
    (heval : e.eval scope = .error fault) :
    (∀ k, fault.cause ≠ .expectedArray k) ∧
      ∀ k, fault.cause = .expectedBool k → ∃ line operand, .not line operand ∈ e.nodes := by
  -- The node that fails is an operand itself, and its operator binds as tightly as the range.
  obtain ⟨node, hnode, scope', hraises⟩ := raisedIn_of_eval h.kind?_isSome heval
  have hcanonical := h.of_mem_nodes node hnode
  cases hraises with
  | unbound => simp
  | misplaced => simp
  | @not line operand _ _ hvalue hnegate =>
      obtain rfl := Value.eq_expectedBool_of_toBool (Value.toBool_of_negate hnegate)
      exact ⟨by simp, fun _ _ => ⟨line, operand, hnode⟩⟩
  | @binary line op left right _ _ _ _ _ happly =>
      have hop := h.le_bindingPower hrange ⟨line, left, right, hnode⟩
      have hnumbers := BinaryOp.takesNumbers_of_bindingPower hop
      rcases BinaryOp.cause_of_apply hnumbers happly with hl | hr | hother
      · simp [Value.eq_notScalar_of_number hl]
      · simp [Value.eq_notScalar_of_number hr]
      · constructor
        · rintro k rfl
          contradiction
        · rintro k rfl
          contradiction
  | _ => cases hcanonical

/-- A range that has a value has elements. -/
theorem exists_items_of_eval (hrange : e.isRange = true) (heval : e.eval scope = .ok v) :
    ∃ items, v = .array items ∧ items ≠ [] := by
  obtain ⟨line, op, left, right, rfl, hop⟩ := exists_of_isRange hrange
  obtain ⟨l, -, heval⟩ := Except.bind_eq_ok_iff.mp heval
  obtain ⟨r, -, heval⟩ := Except.bind_eq_ok_iff.mp heval
  exact BinaryOp.exists_items_of_apply hop (Except.mapError_eq_ok_iff.mp heval)

end Expr

/-! ## running what is read -/

theorem Expr.Formed.of_loop {line : Nat} {name : Option String} {range : Expr} {body : List Expr}
    (h : (Expr.loop line name range body).Formed) : range.Canonical ∧ range.isRange = true := by
  cases h with
  | operand h => cases h
  | loop _ _ _ h hrange => exact ⟨h, hrange⟩

/-- **The shape of what is read is never at fault**: a run of a program that was read is not
stopped by a statement in the place of a value, nor by an operator that is taken for
arithmetic.  The range of each of its loops never fails for an array, and for a truth value
only if it holds a `not`; if it has a value, that is an array with elements. -/
theorem shape_never_at_fault {σ : Type} [Sink σ] {lines : List SourceLine} {p : Program}
    (h : parse lines = .ok p) :
    (∀ (history : History) (out : σ) fault after,
      Transcript.evaluate p ⟨history, out⟩ = .error fault after →
        fault.cause ≠ .statementAsValue ∧ ∀ op, fault.cause ≠ .notArithmetic op) ∧
    ∀ line name range body, .loop line name range body ∈ Expr.nodesAll p → ∀ scope,
      (∀ fault, range.eval scope = .error fault →
        (∀ k, fault.cause ≠ .expectedArray k) ∧
          ∀ k, fault.cause = .expectedBool k → ∃ n operand, .not n operand ∈ range.nodes) ∧
      ∀ v, range.eval scope = .ok v →
        ∃ items, v = .array items ∧ items ≠ [] ∧ v.toArray = .ok items := by
  have hformed := (derives_of_parse h).formed
  constructor
  · intro history out fault after hrun
    obtain ⟨node, hmem, scope, hraises⟩ := Transcript.raisedIn_of_evaluate hrun
    refine ⟨fun hcause => ?_, Expr.ne_notArithmetic_of_raises hraises⟩
    obtain ⟨operand, hoperand, hkind⟩ := Expr.misplaced_of_raises hraises hcause
    have hsome := ((hformed node hmem).operands operand hoperand).kind?_isSome
    simp [hkind] at hsome
  · intro line name range body hmem scope
    obtain ⟨hcanonical, hrange⟩ := (hformed _ hmem).of_loop
    refine ⟨fun fault => hcanonical.cause_of_eval hrange, fun v heval => ?_⟩
    obtain ⟨items, rfl, hne⟩ := Expr.exists_items_of_eval hrange heval
    exact ⟨items, rfl, hne, rfl⟩

/-- The lines of a loop that counts down, and of one whose range negates a number. -/
def negatedLines : List SourceLine :=
  [⟨1, [.keyword .forEach, .literal (.int 3), .operator (.binary .range), .literal (.int 1)]⟩,
    ⟨2, [.keyword .endBlock]⟩,
    ⟨3, [.keyword .forEach, .word "i", .operator (.binary .isIn), .literal (.int 1),
      .operator (.binary .range), .operator .not, .literal (.int 5)]⟩,
    ⟨4, [.keyword .endBlock]⟩]

/-- The range of the first loop. -/
def countingRange : Expr := .binary 1 .range (.literal 1 (.int 3)) (.literal 1 (.int 1))

/-- The range of the second loop. -/
def negatedRange : Expr := .binary 3 .range (.literal 3 (.int 1)) (.not 3 (.literal 3 (.int 5)))

/-- The program of these lines. -/
def negatedProgram : Program := [.loop 1 none countingRange [], .loop 3 (some "i") negatedRange []]

/-- The first loop runs, and the second one stops the program at its `not`. -/
theorem shape_never_at_fault_negated :
    parse negatedLines = .ok negatedProgram ∧
    Transcript.evaluate negatedProgram ⟨[], ({} : Buffer)⟩ =
      .error ⟨.expectedBool .int, 3⟩ ⟨[.loop 1 2], {}⟩ ∧
    (EvalCause.expectedBool .int ≠ .statementAsValue ∧
      ∀ op, EvalCause.expectedBool .int ≠ .notArithmetic op) ∧
    (∃ n operand, .not n operand ∈ negatedRange.nodes) ∧
    ∃ items, Value.array [3, 2] = .array items ∧ items ≠ [] ∧
      (Value.array [3, 2]).toArray = .ok items := by
  have hread : parse negatedLines = .ok negatedProgram := by cbv
  have hrun : Transcript.evaluate negatedProgram ⟨[], ({} : Buffer)⟩ =
      .error ⟨.expectedBool .int, 3⟩ ⟨[.loop 1 2], {}⟩ := by cbv
  have hvalue : countingRange.eval ⟨[], []⟩ = .ok (.array [3, 2]) := by cbv
  have hfault : negatedRange.eval ⟨[], []⟩ = .error ⟨.expectedBool .int, 3⟩ := by cbv
  obtain ⟨hstop, hloop⟩ := shape_never_at_fault (σ := Buffer) hread
  have hfirst := hloop 1 none countingRange [] (by simp [negatedProgram, Expr.nodesAll, Expr.nodes])
  have hsecond := hloop 3 (some "i") negatedRange []
    (by simp [negatedProgram, Expr.nodesAll, Expr.nodes])
  exact ⟨hread, hrun, hstop [] {} _ _ hrun, ((hsecond ⟨[], []⟩).1 _ hfault).2 .int rfl,
    (hfirst ⟨[], []⟩).2 _ hvalue⟩

end LineScript
