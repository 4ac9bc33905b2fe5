import LineScript.Eval.Operator
import LineScript.Expr.Basic

/-!
# LineScript.Eval.Scope

What names mean, and the value of an operand.  The records of a run's top-level
statements are its global scope: a name means what its latest assignment gave
it.  The bindings of the blocks around a statement come first.

* `localValue?_cons` — the innermost binding of a name hides all others;
* `History.value?_append_singleton` — a later record hides earlier ones.
-/

namespace LineScript

/-! ## records and bindings -/

/-- What a statement leaves behind when it has run. -/
inductive Record where
  /-- A name was assigned a value. -/
  | assign (line : Nat) (name : String) (value : Value)
  /-- An operation was computed. -/
  | value (line : Nat) (value : Value)
  /-- A value was printed. -/
  | print (line : Nat) (value : Value)
  /-- A branch was chosen by a condition. -/
  | branch (line : Nat) (condition : Bool)
  /-- A body was run a number of times. -/
  | loop (line iterations : Nat)
  deriving DecidableEq, Repr

/-- The records of a run's top-level statements, oldest first. -/
abbrev History := List Record

/-- A name and its value inside a block. -/
structure Binding where
  name : String
  value : Value
  deriving DecidableEq, Repr

/-- The binding an assignment makes. -/
def Record.binding? : Record → Option Binding
  | assign _ name v => some ⟨name, v⟩
  | _ => none

/-! ## what a name means -/

/-- The value of a name in bindings, of which the innermost comes first. -/
def localValue? (locals : List Binding) (name : String) : Option Value :=
  (locals.find? (·.name = name)).map Binding.value

/-- The value of a name at top level: that of its latest assignment. -/
def History.value? (history : History) (name : String) : Option Value :=
  localValue? (history.reverse.filterMap Record.binding?) name

/-- Everything a name can mean: the bindings of the enclosing blocks, the
innermost first, and the history of the run. -/
structure Scope where
  history : History
  locals : List Binding

namespace Scope

/-- The value of a name. -/
def value? (scope : Scope) (name : String) : Option Value :=
  localValue? scope.locals name <|> scope.history.value? name

/-- The value of a variable on the given line. -/
def lookup (scope : Scope) (line : Nat) (name : String) : Except (Fault EvalCause) Value :=
  match scope.value? name with
  | some value => .ok value
  | none => .error ⟨.unknownVariable name, line⟩

end Scope

/-- The innermost binding of a name hides all others. -/
theorem localValue?_cons (b : Binding) (locals : List Binding) (name : String) :
    localValue? (b :: locals) name =
      if b.name = name then some b.value else localValue? locals name := by
  unfold localValue?
  split
  · next h => simp [h]
  · next h => simp [h]

/-- A later record hides earlier ones. -/
theorem History.value?_append_singleton (history : History) (record : Record) (name : String) :
    History.value? (history ++ [record]) name =
      match record.binding? with
      | some b => if b.name = name then some b.value else history.value? name
      | none => history.value? name := by
  unfold History.value?
  cases h : record.binding? with
  | none => simp [h]
  | some b => simp [h, localValue?_cons]

/-! ## operands -/

/-- A result on the given line. -/
@[inline] def atLine (line : Nat) (result : Except EvalCause α) : Except (Fault EvalCause) α :=
  result.mapError (⟨·, line⟩)

/-- The value of an operand.  Both operands of an operator are evaluated, the
left one first, before the operator is applied. -/
def Expr.eval (scope : Scope) : Expr → Except (Fault EvalCause) Value
  | literal _ value => .ok (.scalar value)
  | var line name => scope.lookup line name
  | not line operand => do
    let value ← operand.eval scope
    atLine line value.negate
  | binary line op left right => do
    let l ← left.eval scope
    let r ← right.eval scope
    atLine line (op.apply l r)
  | assign line _ _ | print line _ | branch line _ _ _ | loop line _ _ _ =>
    .error ⟨.statementAsValue, line⟩

end LineScript
