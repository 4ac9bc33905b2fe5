import LineScript.Value

/-!
# LineScript.Eval.Operator

What the operators compute.  Arithmetic is exact or fails: a result is computed
on integers and has to fit into a number.  A range counts from its start towards
its end, and its length is measured in a word of 64 bits before it is built.

* `arithmetic_eq_ok_iff` — a result is the exact one.
-/

namespace LineScript

namespace BinaryOp

/-! ## arithmetic -/

/-- The exact result of an arithmetic operator; division drops the fraction. -/
def integerResult? (op : BinaryOp) (left right : Int) : Option Int :=
  match op with
  | add => some (left + right)
  | sub => some (left - right)
  | mul => some (left * right)
  | div => some (left.tdiv right)
  | _ => none

/-- The result of an arithmetic operator. -/
def arithmetic (op : BinaryOp) (left right : Number) : Except EvalCause Number :=
  if op = div ∧ right = 0 then .error .divisionByZero
  else
    match op.integerResult? left.toInt right.toInt with
    | none => .error (.notArithmetic op)
    | some z =>
      match Number.ofInt? z with
      | some n => .ok n
      | none => .error .overflow

/-- A result is the exact one. -/
theorem arithmetic_eq_ok_iff {op : BinaryOp} {left right n : Number} :
    op.arithmetic left right = .ok n ↔
      ¬(op = div ∧ right = 0) ∧ op.integerResult? left.toInt right.toInt = some n.toInt := by
  unfold arithmetic
  split
  · simp_all
  · next h =>
    split
    · simp_all
    · next z hz =>
      split
      · next m hm =>
        rw [Number.ofInt?_eq_some_iff] at hm
        simp [h, hz, ← hm, Int64.toInt_inj]
      · next hm =>
        simp only [hz, Option.some.injEq, reduceCtorEq, false_iff, not_and]
        rintro - rfl
        simp at hm

/-! ## comparison -/

/-- Whether a comparison of two numbers holds; other operators compare
nothing. -/
def holds (op : BinaryOp) (left right : Number) : Bool :=
  match op with
  | equal => left = right
  | greater => right < left
  | greaterEqual => right ≤ left
  | less => left < right
  | lessEqual => left ≤ right
  | _ => false

/-! ## ranges -/

/-- The largest number of elements a range may have. -/
def maxRangeLength : UInt64 := (1 : UInt64) <<< 24

/-- The number of elements of a range, as far as a word can hold it. -/
def rangeLength (start stop : Number) (inclusive : Bool) : UInt64 :=
  Number.saturatingAdd (start.distance stop) (if inclusive then 1 else 0)

/-- The numbers from `start` towards `stop`.  Those that count down are reversed from
those that count up. -/
def countTowards (start stop : Number) (inclusive : Bool) : List Number :=
  match compare start stop, inclusive with
  | .lt, false => Number.upTo start stop []
  | .lt, true => Number.through start stop []
  | .gt, false => (Number.through (stop + 1) start []).reverse
  | .gt, true | .eq, _ => (Number.through stop start []).reverse

/-- The elements of a range.  Its length is known before any of them is made. -/
def rangeItems (start stop : Number) (inclusive : Bool) : Except EvalCause (List Number) :=
  if start = stop ∧ inclusive = false then .error .emptyRange
  else
    let length := rangeLength start stop inclusive
    if maxRangeLength < length then
      .error (.rangeTooLarge length.toNat maxRangeLength.toNat)
    else .ok (countTowards start stop inclusive)

/-! ## all operators -/

/-- The value of an operator between two values. -/
def apply (op : BinaryOp) (left right : Value) : Except EvalCause Value :=
  match op with
  | add | sub | mul | div => do
    let l ← left.number
    let r ← right.number
    return .int (← op.arithmetic l r)
  | equal | greater | greaterEqual | less | lessEqual => do
    let l ← left.number
    let r ← right.number
    return .bool (op.holds l r)
  | and => do
    if ← left.toBool then return .bool (← right.toBool) else return .bool false
  | or => do
    if ← left.toBool then return .bool true else return .bool (← right.toBool)
  | xor => do
    let l ← left.toBool
    let r ← right.toBool
    return .bool (l ^^ r)
  | isIn => do
    let l ← left.number
    let items ← right.toArray
    return .bool (items.contains l)
  | range | rangeInclusive => do
    let l ← left.number
    let r ← right.number
    return .array (← rangeItems l r (op = rangeInclusive))

end BinaryOp

/-- The negation of a truth value. -/
def Value.negate (operand : Value) : Except EvalCause Value := do
  return .bool (!(← operand.toBool))

end LineScript
