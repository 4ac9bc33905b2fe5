import LineScript.Error
import LineScript.Expr.Basic
import LineScript.Token.Basic

/-!
# LineScript.Expr.Operation

Operands from tokens.  A span of tokens is cut at its loosest operator, and of
several equally loose ones at the last, so that chains lean to the left:
`8 / 2 / 2` is `(8 / 2) / 2`.  `not` is looser than every operator between two
operands and cuts only a span that it starts.

* `splitLoosest_eq_some` — the two sides and the operator are the whole span;
* `bindingPower_of_splitLoosest` — no operator of the left side is looser, and every
  operator of the right side is tighter.
-/

namespace LineScript

namespace Expr

/-! ## the loosest operator -/

/-- A span of tokens around one operator. -/
structure Split where
  left : List Token
  op : BinaryOp
  right : List Token

/-- Put a token in front of a split. -/
def Split.cons (token : Token) (s : Split) : Split := { s with left := token :: s.left }

/-- Cut a span at its loosest operator, and of several equally loose ones at
the last. -/
def splitLoosest : List Token → Option Split
  | [] => none
  | .operator (.binary op) :: tokens =>
    match splitLoosest tokens with
    | none => some ⟨[], op, tokens⟩
    | some s =>
      if op.bindingPower < s.op.bindingPower then some ⟨[], op, tokens⟩
      else some (s.cons (.operator (.binary op)))
  | token :: tokens => (splitLoosest tokens).map (·.cons token)

/-- The two sides and the operator are the whole span. -/
theorem splitLoosest_eq_some {tokens : List Token} {s : Split} (h : splitLoosest tokens = some s) :
    tokens = s.left ++ .operator (.binary s.op) :: s.right := by
  induction tokens generalizing s with
  | nil => simp [splitLoosest] at h
  | cons token tokens ih =>
      unfold splitLoosest at h
      split at h
      · contradiction
      · next op rest heq =>
        cases heq
        split at h
        · cases h; rfl
        · next s' hs =>
          split at h
          · cases h; rfl
          · cases h; simpa [Split.cons] using ih hs
      · next heq =>
        cases heq
        obtain ⟨s', hs, rfl⟩ := Option.map_eq_some_iff.mp h
        simpa [Split.cons] using ih hs

/-- Both sides are shorter than the span. -/
theorem length_lt_of_splitLoosest {tokens : List Token} {s : Split}
    (h : splitLoosest tokens = some s) :
    s.left.length < tokens.length ∧ s.right.length < tokens.length := by
  rw [splitLoosest_eq_some h]
  simp; omega

/-- A span without a split holds no operator between two operands. -/
theorem splitLoosest_eq_none {tokens : List Token} (h : splitLoosest tokens = none)
    (op : BinaryOp) : .operator (.binary op) ∉ tokens := by
  induction tokens with
  | nil => simp
  | cons token tokens ih =>
      unfold splitLoosest at h
      split at h
      · next heq => cases heq
      · split at h
        · contradiction
        · split at h <;> contradiction
      · next hne heq =>
        cases heq
        have := ih (by simpa using h)
        simp only [List.mem_cons, not_or]
        exact ⟨fun e => hne op e.symm, this⟩

/-- Both sides of a split against its operator: no operator of the left side is
looser, and every operator of the right side is tighter. -/
theorem bindingPower_of_splitLoosest {tokens : List Token} {s : Split}
    (h : splitLoosest tokens = some s) (op : BinaryOp) :
    (.operator (.binary op) ∈ s.left → s.op.bindingPower ≤ op.bindingPower) ∧
      (.operator (.binary op) ∈ s.right → s.op.bindingPower < op.bindingPower) := by
  induction tokens generalizing s with
  | nil => simp [splitLoosest] at h
  | cons token tokens ih =>
      unfold splitLoosest at h
      split at h
      · contradiction
      · next first rest heq =>
        cases heq
        split at h
        · next hnone =>
          cases h
          exact ⟨by simp, fun hmem => absurd hmem (splitLoosest_eq_none hnone op)⟩
        · next s' hs =>
          obtain ⟨hl, hr⟩ := ih hs
          split at h
          · next hlt =>
            cases h
            refine ⟨by simp, fun hmem => ?_⟩
            rw [splitLoosest_eq_some hs] at hmem
            simp only [List.mem_append, List.mem_cons, Token.operator.injEq,
              Operator.binary.injEq] at hmem
            rcases hmem with hmem | rfl | hmem
            · exact Nat.lt_of_lt_of_le hlt (hl hmem)
            · exact hlt
            · exact Nat.lt_trans hlt (hr hmem)
          · next hge =>
            cases h
            refine ⟨fun hmem => ?_, hr⟩
            simp only [Split.cons, List.mem_cons, Token.operator.injEq,
              Operator.binary.injEq] at hmem
            rcases hmem with rfl | hmem
            · exact Nat.le_of_not_lt hge
            · exact hl hmem
      · next hne heq =>
        cases heq
        obtain ⟨s', hs, rfl⟩ := Option.map_eq_some_iff.mp h
        obtain ⟨hl, hr⟩ := ih hs
        refine ⟨fun hmem => ?_, hr⟩
        simp only [Split.cons, List.mem_cons] at hmem
        rcases hmem with hmem | hmem
        · exact absurd hmem.symm (hne op)
        · exact hl hmem

/-! ## operands -/

/-- The operand a single token spells. -/
def ofToken (line : Nat) : Token → Except (Fault ParseCause) Expr
  | .literal value => .ok (.literal line value)
  | .word name => .ok (.var line name)
  | .operator op => .error ⟨.missingOperand op, line⟩
  | .keyword k => .error ⟨.invalidOperand k, line⟩

/-- The operand a span of tokens spells. -/
def ofTokens (line : Nat) (tokens : List Token) : Except (Fault ParseCause) Expr :=
  match tokens with
  | [token] => ofToken line token
  | tokens =>
    if .operator .assign ∈ tokens then .error ⟨.misplacedAssignment, line⟩
    else
      match tokens with
      | .operator .not :: rest => do
        let operand ← ofTokens line rest
        return .not line operand
      | tokens =>
        match h : splitLoosest tokens with
        | none => .error ⟨.expectedOperator, line⟩
        | some s =>
          have := length_lt_of_splitLoosest h
          if s.left.isEmpty then .error ⟨.missingOperand (.binary s.op), line⟩
          else do
            let left ← ofTokens line s.left
            if s.right.isEmpty then .error ⟨.missingOperand (.binary s.op), line⟩
            else
              let right ← ofTokens line s.right
              return .binary line s.op left right
termination_by tokens.length

end Expr

end LineScript
