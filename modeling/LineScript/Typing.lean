import LineScript.Error
import LineScript.Expr.Basic

/-!
# LineScript.Typing

Checking a program before it runs.  Every operand has a kind that can be read
off its outermost node; the check compares these kinds with what each operator
and each keyword accepts.  It visits a node before what is below it, and stops
at the first violation.
-/

namespace LineScript

/-! ## what is accepted -/

namespace BinaryOp

/-- The kind of an operator's result. -/
def resultKind : BinaryOp → Kind
  | add | sub | mul | div => .int
  | equal | greater | greaterEqual | less | lessEqual | and | or | xor | isIn => .bool
  | range | rangeInclusive => .array

/-- Whether an operator accepts operands of the given kinds. -/
def accepts (op : BinaryOp) (left right : Kind) : Bool :=
  match op with
  | add | sub | mul | div | equal | greater | greaterEqual | less | lessEqual | range
  | rangeInclusive => left.mayBeScalar && right.mayBeScalar
  | and | or | xor => left.mayBeBool && right.mayBeBool
  | isIn => left.mayBeScalar && right.mayBeArray

end BinaryOp

/-- Whether a keyword accepts an operand of the given kind. -/
def Keyword.accepts (keyword : Keyword) (k : Kind) : Bool :=
  match keyword with
  | print => true
  | ifTrue => k.mayBeBool
  | forEach => k = .array
  | orElse | endBlock | whileTrue => false

namespace Expr

/-- The kind of a tree's value; a statement has none. -/
def kind? : Expr → Option Kind
  | literal _ value => some value.kind
  | var _ _ => some .unknown
  | not _ _ => some .bool
  | binary _ op _ _ => some op.resultKind
  | assign .. | print .. | branch .. | loop .. => none

/-! ## one node -/

/-- Why a node does not suit the kinds of what is right below it, if it does
not. -/
def violation? : Expr → Option CheckCause
  | literal .. | var .. => none
  | not _ operand =>
    if operand.kind?.any Kind.mayBeBool then none else some (.operatorArguments .not)
  | binary _ op left right =>
    if left.kind?.any fun l => right.kind?.any fun r => op.accepts l r then none
    else some (.operatorArguments (.binary op))
  | assign _ _ value => if value.kind?.isSome then none else some (.operatorArguments .assign)
  | print _ value =>
    if value.kind?.any Keyword.print.accepts then none else some (.keywordArgument .print)
  | branch _ condition _ _ =>
    if condition.kind?.any Keyword.ifTrue.accepts then none else some (.keywordArgument .ifTrue)
  | loop _ _ range _ =>
    if range.kind?.any Keyword.forEach.accepts then none else some (.keywordArgument .forEach)

/-- Accept a node or fail at its line. -/
def checkNode (e : Expr) : Except (Fault CheckCause) Unit :=
  match e.violation? with
  | none => .ok ()
  | some cause => .error ⟨cause, e.line⟩

/-! ## whole trees -/

mutual

/-- Check a tree: the node itself, then what is below it from left to right. -/
def check : Expr → Except (Fault CheckCause) Unit
  | literal .. | var .. => .ok ()
  | not line operand => do
    checkNode (.not line operand)
    check operand
  | binary line op left right => do
    checkNode (.binary line op left right)
    check left
    check right
  | assign line name value => do
    checkNode (.assign line name value)
    check value
  | print line value => do
    checkNode (.print line value)
    check value
  | branch line condition body otherwise => do
    checkNode (.branch line condition body otherwise)
    check condition
    checkAll body
    match otherwise with
    | some body => checkAll body
    | none => .ok ()
  | loop line name range body => do
    checkNode (.loop line name range body)
    check range
    checkAll body

/-- Check trees from left to right. -/
def checkAll : List Expr → Except (Fault CheckCause) Unit
  | [] => .ok ()
  | e :: es => do
    check e
    checkAll es

end

end Expr

/-- Check a program. -/
def Program.check (program : Program) : Except (Fault CheckCause) Unit := Expr.checkAll program

end LineScript
