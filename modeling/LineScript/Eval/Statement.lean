import LineScript.Eval.Scope
import LineScript.Eval.Sink

/-!
# LineScript.Eval.Statement

Running statements.  A statement reads the history of the run, and it reads and
extends the bindings of the block it stands in; what it prints goes to a sink.
The bindings made inside a block are dropped when the block ends.

* `locals_of_enclosed` — after a block, the bindings are as they were.
-/

namespace LineScript

/-- What running a statement changes: the bindings of the enclosing blocks,
innermost first, and the sink. -/
structure Frame (σ : Type) where
  locals : List Binding
  out : σ

/-- Running statements: it may fail, and it leaves a frame in either case. -/
abbrev Eval (σ : Type) := EStateM (Fault EvalCause) (Frame σ)

/-- The name that every loop gives to its current element. -/
def loopName : String := "_it"

namespace Eval

variable {σ : Type}

/-! ## the frame -/

/-- The value of an operand. -/
@[inline] def operand (history : History) (e : Expr) : Eval σ Value := do
  MonadExcept.ofExcept (e.eval ⟨history, (← get).locals⟩)

/-- Add a binding to the innermost block. -/
@[inline] def bindLocal (b : Binding) : Eval σ Unit :=
  modify fun frame => { frame with locals := b :: frame.locals }

/-- Run an action and drop the bindings it made.  If it fails they stay. -/
@[inline] def enclosed (action : Eval σ α) : Eval σ α := fun frame =>
  match action frame with
  | .ok a after => .ok a { after with locals := frame.locals }
  | .error fault after => .error fault after

/-- Write a line of text for the statement on the given line. -/
@[inline] def writeLine [Sink σ] (line : Nat) (text : String) : Eval σ Unit := fun ⟨locals, out⟩ =>
  match Sink.write (text ++ "\n") out with
  | .ok () out => .ok () ⟨locals, out⟩
  | .error reason out => .error ⟨.output reason, line⟩ ⟨locals, out⟩

/-- Keep the binding that a record makes, if it makes one. -/
@[inline] def keep (record : Record) : Eval σ Unit :=
  match record.binding? with
  | some b => bindLocal b
  | none => pure ()

/-- Bind the current element of a loop: to the name of every loop, and to the
name in its header if there is one. -/
@[inline] def bindElement (name : Option String) (item : Number) : Eval σ Unit := do
  bindLocal ⟨loopName, .int item⟩
  match name with
  | some name => bindLocal ⟨name, .int item⟩
  | none => pure ()

/-- After a block, the bindings are as they were. -/
theorem locals_of_enclosed {action : Eval σ α} {frame after : Frame σ} {a : α}
    (h : enclosed action frame = .ok a after) : after.locals = frame.locals := by
  unfold enclosed at h
  split at h
  · cases h; rfl
  · contradiction

/-! ## statements -/

variable [Sink σ]

mutual

/-- Run a statement. -/
def statement (history : History) : Expr → Eval σ Record
  | .assign line name value => do
    return .assign line name (← operand history value)
  | .print line e => do
    let value ← operand history e
    writeLine line value.text
    return .print line value
  | .branch line condition body otherwise => do
    let value ← operand history condition
    let taken ← MonadExcept.ofExcept (atLine line value.toBool)
    if taken then enclosed (statements history body)
    else
      match otherwise with
      | some body => enclosed (statements history body)
      | none => pure ()
    return .branch line taken
  | .loop line name range body => do
    let value ← operand history range
    let items ← MonadExcept.ofExcept (atLine line value.toArray)
    items.forM fun item => enclosed do
      bindElement name item
      enclosed (statements history body)
    return .loop line items.length
  | .literal line value => do
    return .value line (← operand history (.literal line value))
  | .var line name => do
    return .value line (← operand history (.var line name))
  | .not line e => do
    return .value line (← operand history (.not line e))
  | .binary line op left right => do
    return .value line (← operand history (.binary line op left right))

/-- Run the statements of a block in order, and keep the bindings they make. -/
def statements (history : History) : List Expr → Eval σ Unit
  | [] => pure ()
  | e :: es => do
    keep (← statement history e)
    statements history es

end

/-- Run the body of a block. -/
def block (history : History) (body : List Expr) : Eval σ Unit := enclosed (statements history body)

end Eval

end LineScript
