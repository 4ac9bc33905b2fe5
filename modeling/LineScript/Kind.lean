/-!
# LineScript.Kind

Kinds: what is known of a value without its contents.  The tables say which
kinds the operators and the keywords of the language accept.
-/

namespace LineScript

/-- What is known of a value without its contents.  A variable is of kind
`unknown`, since its value is settled only when the program runs. -/
inductive Kind where
  | int
  | char
  | bool
  | unknown
  | array
  deriving DecidableEq, Repr

namespace Kind

/-- The name of a kind, as messages show it. -/
def name : Kind → String
  | int => "int"
  | char => "char"
  | bool => "bool"
  | unknown => "word"
  | array => "array"

/-- Kinds whose values may stand for a number. -/
def mayBeScalar : Kind → Bool
  | int | char | bool | unknown => true
  | array => false

/-- Kinds whose values may be a truth value. -/
def mayBeBool : Kind → Bool
  | bool | unknown => true
  | int | char | array => false

/-- Kinds whose values may be an array. -/
def mayBeArray : Kind → Bool
  | array | unknown => true
  | int | char | bool => false

end Kind

end LineScript
