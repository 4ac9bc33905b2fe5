import LineScript.Scalar
import LineScript.Symbol

/-!
# LineScript.Expr.Basic

Trees: operands and statements.  Every node carries the number of the line it
was written on.  Operands are literals, variables and operations; statements
are assignments, printing, branches and loops, and a bare operation is a
statement too.
-/

namespace LineScript

/-- A tree of the language. -/
inductive Expr where
  /-- A literal. -/
  | literal (line : Nat) (value : Scalar)
  /-- A variable. -/
  | var (line : Nat) (name : String)
  /-- The negation of a truth value. -/
  | not (line : Nat) (operand : Expr)
  /-- An operation on two operands. -/
  | binary (line : Nat) (op : BinaryOp) (left right : Expr)
  /-- The assignment of a value to a name. -/
  | assign (line : Nat) (name : String) (value : Expr)
  /-- Printing a value on a line of its own. -/
  | print (line : Nat) (value : Expr)
  /-- A choice between two branches, the second of which may be missing. -/
  | branch (line : Nat) (condition : Expr) (body : List Expr) (otherwise : Option (List Expr))
  /-- Running a body once for every element of a range.  The element may be
  given a name. -/
  | loop (line : Nat) (name : Option String) (range : Expr) (body : List Expr)
  deriving Repr

/-- A program is the list of its top-level statements. -/
abbrev Program := List Expr

namespace Expr

/-- The number of the line a tree was written on. -/
def line : Expr → Nat
  | literal line _ => line
  | var line _ => line
  | not line _ => line
  | binary line _ _ _ => line
  | assign line _ _ => line
  | print line _ => line
  | branch line _ _ _ => line
  | loop line _ _ _ => line

/-- Whether the tree is a range. -/
def isRange : Expr → Bool
  | binary _ op _ _ => op.isRange
  | _ => false

/-- Whether the tree prints at top level. -/
def isPrint : Expr → Bool
  | print _ _ => true
  | _ => false

end Expr

end LineScript
