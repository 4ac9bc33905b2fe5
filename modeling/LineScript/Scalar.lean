import LineScript.Kind
import LineScript.Number

/-!
# LineScript.Scalar

Scalars: the values that can be written as one literal.  In arithmetic and in
comparisons every scalar stands for a number.
-/

namespace LineScript

/-- A value that can be written as one literal. -/
inductive Scalar where
  | int (n : Number)
  | char (c : Char)
  | bool (b : Bool)
  deriving DecidableEq, Repr

namespace Scalar

/-- The kind of a scalar. -/
def kind : Scalar → Kind
  | int _ => .int
  | char _ => .char
  | bool _ => .bool

/-- The number a scalar stands for: a character for its code point, a truth
value for one or zero. -/
def number : Scalar → Number
  | int n => n
  | char c => Int64.ofNat c.toNat
  | bool b => if b then 1 else 0

/-- The text of a scalar, as it is printed. -/
def text : Scalar → String
  | int n => n.text
  | char c => String.singleton c
  | bool b => if b then "true" else "false"

/-- A character stands for its code point. -/
theorem toInt_number_char (c : Char) : (number (.char c)).toInt = c.toNat := by
  have h : c.toNat < 2 ^ 32 := c.val.toNat_lt
  exact Int64.toInt_ofNat_of_lt (by omega)

end Scalar

end LineScript
