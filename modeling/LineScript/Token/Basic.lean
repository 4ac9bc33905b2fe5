import LineScript.Scalar
import LineScript.Symbol

/-!
# LineScript.Token.Basic

Tokens, the lines they stand on, and how a token is spelled.
-/

namespace LineScript

/-- The smallest piece of a line that has a meaning of its own. -/
inductive Token where
  | literal (value : Scalar)
  | keyword (keyword : Keyword)
  | operator (op : Operator)
  | word (name : String)
  deriving DecidableEq, Repr

namespace Token

/-- The keyword a token is, if it is one. -/
def keyword? : Token → Option Keyword
  | keyword k => some k
  | _ => none

/-- The operator a token is, if it is one. -/
def operator? : Token → Option Operator
  | operator op => some op
  | _ => none

/-- Whether a token is an operator. -/
def isOperator (t : Token) : Bool := t.operator?.isSome

/-- Whether a token is a literal. -/
def isLiteral : Token → Bool
  | literal _ => true
  | _ => false

/-- How a token is written. -/
def spelling : Token → List Char
  | literal (.int n) => Decimal.write n.toInt
  | literal (.char c) => ['\'', c, '\'']
  | literal (.bool b) => if b then "true".toList else "false".toList
  | keyword k => k.spelling.toList
  | operator op => op.spelling.toList
  | word name => name.toList

end Token

/-- The tokens of one line and the number of that line, counted from one. -/
structure SourceLine where
  number : Nat
  tokens : List Token
  deriving DecidableEq, Repr

/-- The keyword a line starts with, if it starts with one. -/
def SourceLine.keyword? (line : SourceLine) : Option Keyword :=
  line.tokens.head?.bind Token.keyword?

end LineScript
