import LineScript.Decimal
import LineScript.Kind
import LineScript.Symbol

/-!
# LineScript.Error

What can go wrong, and how it is reported.  Each stage has its own causes of
failure; a `Fault` is a cause together with the number of the line at fault.
An `Error` is a fault of any stage, and `Error.message` is the only place
where the wording of messages is decided.
-/

namespace LineScript

/-- A cause of failure together with the number of the line at fault. -/
structure Fault (κ : Type) where
  cause : κ
  line : Nat
  deriving DecidableEq, Repr

/-! ## causes, stage by stage -/

/-- Why a line cannot be cut into tokens. -/
inductive LexCause where
  /-- Two spaces stand side by side inside the line. -/
  | emptyToken
  /-- A literal is beyond the numbers of the language. -/
  | literalTooLarge (text : String)
  deriving DecidableEq, Repr

/-- Why lines of tokens are not a program. -/
inductive ParseCause where
  /-- A statement starts with a word and then another word or a keyword. -/
  | unknownConstruction
  /-- A statement starts with neither a keyword nor a word and an operator. -/
  | notAllowedStart
  /-- A keyword stands where no open block allows it. -/
  | unexpectedKeyword (keyword : Keyword)
  /-- The keyword is reserved and starts no statement. -/
  | unsupportedKeyword (keyword : Keyword)
  /-- A block is never closed. -/
  | unclosedBlock
  /-- A keyword that stands alone on its line is followed by tokens. -/
  | trailingTokens (keyword : Keyword)
  /-- A keyword lacks its expression. -/
  | missingExpression (keyword : Keyword)
  /-- A name is assigned a second time. -/
  | doubleAssignment (name : String)
  /-- The left side of an assignment is not one word. -/
  | invalidTarget
  /-- An assignment stands inside an expression. -/
  | misplacedAssignment
  /-- An operator lacks an operand. -/
  | missingOperand (op : Operator)
  /-- Operands follow each other without an operator. -/
  | expectedOperator
  /-- A keyword stands in the place of an operand. -/
  | invalidOperand (keyword : Keyword)
  /-- What follows `print` is not an expression. -/
  | invalidPrintArgument
  /-- What follows `for` is not a range. -/
  | nonRangeLoop
  deriving DecidableEq, Repr

/-- Why a program is rejected before it runs. -/
inductive CheckCause where
  /-- The kinds of an operator's operands do not suit it. -/
  | operatorArguments (op : Operator)
  /-- The kind of a keyword's expression does not suit it. -/
  | keywordArgument (keyword : Keyword)
  deriving DecidableEq, Repr

/-- Why a run stops. -/
inductive EvalCause where
  /-- No assignment of the variable is in scope. -/
  | unknownVariable (name : String)
  /-- A statement stands in the place of an operand. -/
  | statementAsValue
  /-- The operator does not compute a number from two numbers. -/
  | notArithmetic (op : BinaryOp)
  /-- An array stands where a number is needed. -/
  | notScalar
  /-- A truth value is needed. -/
  | expectedBool (found : Kind)
  /-- An array is needed. -/
  | expectedArray (found : Kind)
  /-- A range without its end starts where it ends. -/
  | emptyRange
  /-- A range has more elements than `limit`. -/
  | rangeTooLarge (length limit : Nat)
  /-- A result is beyond the numbers of the language. -/
  | overflow
  /-- A number is divided by zero. -/
  | divisionByZero
  /-- The printed text was not accepted. -/
  | output (reason : String)
  deriving DecidableEq, Repr

/-- A fault of any stage. -/
inductive Error where
  | lex (fault : Fault LexCause)
  | parse (fault : Fault ParseCause)
  | check (fault : Fault CheckCause)
  | eval (fault : Fault EvalCause)
  deriving DecidableEq, Repr

/-! ## messages -/

/-- A text between single quotation marks. -/
def quoted (s : String) : String := "'" ++ s ++ "'"

/-- The wording of a fault in the tokens of a line. -/
def LexCause.message : LexCause → String
  | emptyToken => "Empty token!"
  | literalTooLarge text => "Integer literal " ++ text ++ " is too large."

/-- The wording of a fault in the grammar. -/
def ParseCause.message : ParseCause → String
  | unknownConstruction => "Unknown construction."
  | notAllowedStart => "Not allowed word on the beginning of the line."
  | unexpectedKeyword k => "Unexpected keyword " ++ quoted k.spelling ++ "."
  | unsupportedKeyword k => "Keyword " ++ quoted k.spelling ++ " is reserved and not supported."
  | unclosedBlock => "Block is not closed with " ++ quoted Keyword.endBlock.spelling ++ "."
  | trailingTokens k => "Unexpected tokens after " ++ quoted k.spelling ++ "."
  | missingExpression k => "Keyword " ++ quoted k.spelling ++ " requires an expression."
  | doubleAssignment name =>
    "You cannot assign value to variable " ++ quoted name ++ " that already has been assigned."
  | invalidTarget => "Only a single variable can be assigned to."
  | misplacedAssignment => "Assignment is only allowed at the beginning of a statement."
  | missingOperand op => "Operator " ++ quoted op.spelling ++ " is missing an operand."
  | expectedOperator => "Expected an operator between operands."
  | invalidOperand k => quoted k.spelling ++ " cannot be used as an operand."
  | invalidPrintArgument => "You can print only literals, variables or operations."
  | nonRangeLoop =>
    quoted Keyword.forEach.spelling ++ " can only iterate over a range (" ++
      quoted BinaryOp.range.spelling ++ " or " ++ quoted BinaryOp.rangeInclusive.spelling ++ ")."

/-- The wording of a rejection. -/
def CheckCause.message : CheckCause → String
  | operatorArguments op => "Wrong argument types for operator " ++ op.spelling
  | keywordArgument k => "Wrong operation return type for keyword " ++ k.spelling

/-- The wording of a failure at run time. -/
def EvalCause.message : EvalCause → String
  | unknownVariable name => "Could not find assignment for variable " ++ name
  | statementAsValue => "Type error: a statement cannot be used as a value."
  | notArithmetic op => "Type error: " ++ quoted op.spelling ++ " is not an arithmetic operator."
  | notScalar => "Type error: expected a scalar value, found array."
  | expectedBool found => "Expected boolean, found " ++ found.name ++ "."
  | expectedArray found => "Expected array, found " ++ found.name ++ "."
  | emptyRange => "Arguments of the exclusive range operator cannot be equal."
  | rangeTooLarge length limit =>
    "Range of " ++ Decimal.text length ++ " elements exceeds the limit of " ++
      Decimal.text limit ++ "."
  | overflow => "Integer overflow while trying to compute result."
  | divisionByZero => "Division by zero."
  | output reason => "Failed to write output: " ++ reason

namespace Error

/-- The number of the line at fault. -/
def line : Error → Nat
  | lex fault => fault.line
  | parse fault => fault.line
  | check fault => fault.line
  | eval fault => fault.line

/-- The stage that found the fault, as messages show it. -/
def stage : Error → String
  | lex _ => "Lexer"
  | parse _ => "Parser"
  | check _ => "Syntax"
  | eval _ => "Evaluator"

/-- What is wrong, apart from where. -/
def details : Error → String
  | lex fault => fault.cause.message
  | parse fault => fault.cause.message
  | check fault => fault.cause.message
  | eval fault => fault.cause.message

/-- The whole message: the stage, the line and what is wrong. -/
def message (e : Error) : String :=
  e.stage ++ " error in line " ++ Decimal.text e.line ++ ": " ++ e.details

end Error

end LineScript
