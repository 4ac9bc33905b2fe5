import LineScript.Error
import LineScript.Scalar

/-!
# LineScript.Value

Values at run time: scalars, and the arrays of numbers that ranges make.
-/

namespace LineScript

/-- A value at run time. -/
inductive Value where
  | scalar (value : Scalar)
  | array (items : List Number)
  deriving DecidableEq, Repr

namespace Value

/-- The value of a number. -/
abbrev int (n : Number) : Value := scalar (.int n)

/-- The value of a truth value. -/
abbrev bool (b : Bool) : Value := scalar (.bool b)

/-- The kind of a value. -/
def kind : Value → Kind
  | scalar value => value.kind
  | array _ => .array

/-- The text of a value, as it is printed: an array is the texts of its
elements with a comma and a space between them. -/
def text : Value → String
  | scalar value => value.text
  | array items => ", ".intercalate (items.map Number.text)

/-! ## as an operand -/

/-- The number a value stands for. -/
def number : Value → Except EvalCause Number
  | scalar value => .ok value.number
  | array _ => .error .notScalar

/-- The truth value a value is. -/
def toBool : Value → Except EvalCause Bool
  | scalar (.bool b) => .ok b
  | value => .error (.expectedBool value.kind)

/-- The elements of the array a value is. -/
def toArray : Value → Except EvalCause (List Number)
  | array items => .ok items
  | value => .error (.expectedArray value.kind)

theorem toBool_eq_ok_iff {v : Value} {b : Bool} : v.toBool = .ok b ↔ v = bool b := by
  cases v with
  | scalar s => cases s <;> simp [toBool]
  | array items => simp [toBool]

theorem toArray_eq_ok_iff {v : Value} {items : List Number} :
    v.toArray = .ok items ↔ v = array items := by
  cases v <;> simp [toArray]

end Value

end LineScript
