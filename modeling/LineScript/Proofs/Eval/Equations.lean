import LineScript.Eval.Transcript
import LineScript.Proofs.Stateful
import LineScript.Typing
import Mathlib

/-!
# LineScript.Proofs.Eval.Equations

What a statement does, in one equation for each kind of statement and each way it
can go on: by the value of the operand it needs, if that has one.  A block and the
turns of a loop are compared with what stands in them, apart from the bindings they
make, which are gone at their end.

* `Eval.statement_branch`, `Eval.statement_loop` — statements with a block;
* `Eval.locals_of_statement` — a statement that has run leaves the bindings alone.
-/

namespace EStateM

variable {ε σ α β : Type}

theorem Result.mapState_map {τ : Type} (φ : σ → τ) (f : α → β) (r : Result ε σ α) :
    (r.map f).mapState φ = (r.mapState φ).map f := by
  cases r <;> rfl

theorem bind_pure_eq_map (x : EStateM ε σ α) (f : α → β) (s : σ) :
    (x >>= fun a => pure (f a)) s = (x s).map f := by
  cases h : x s with
  | ok a t => rw [bind_of_ok h]; rfl
  | error e t => rw [bind_of_error h]; rfl

end EStateM

namespace LineScript

/-! ## what running leaves -/

/-- What running leaves: a value or a fault, and the sink after it. -/
abbrev Answer (σ α : Type) := EStateM.Result (Fault EvalCause) σ α

/-- The operand a statement needs before it does anything else; of a bare operand,
the operand itself. -/
def Expr.needed : Expr → Expr
  | assign _ _ value => value
  | print _ value => value
  | branch _ condition _ _ => condition
  | loop _ _ range _ => range
  | e => e

/-- The bindings that a turn of a loop starts with. -/
def elementBindings (name : Option String) (item : Number) : List Binding :=
  (name.map fun name => ⟨name, .int item⟩).toList ++ [⟨loopName, .int item⟩]

namespace Eval

variable {σ α : Type}

/-- What an action leaves, apart from its bindings. -/
def answer (x : Eval σ α) (frame : Frame σ) : Answer σ α := (x frame).mapState Frame.out

theorem answer_bind_of_ok {β : Type} {x : Eval σ α} {f : α → Eval σ β} {frame between : Frame σ}
    {a : α} (h : x frame = .ok a between) : answer (x >>= f) frame = answer (f a) between := by
  rw [answer, EStateM.bind_of_ok h]
  rfl

theorem answer_bind_of_error {β : Type} {x : Eval σ α} {f : α → Eval σ β} {frame after : Frame σ}
    {fault : Fault EvalCause} (h : x frame = .error fault after) :
    answer (x >>= f) frame = .error fault after.out := by
  rw [answer, EStateM.bind_of_error h]
  rfl

theorem exists_of_answer_eq_ok {x : Eval σ α} {frame : Frame σ} {a : α} {after : σ}
    (h : answer x frame = .ok a after) : ∃ locals, x frame = .ok a ⟨locals, after⟩ := by
  unfold answer at h
  cases hx : x frame with
  | ok b final =>
      rw [hx] at h
      cases h
      exact ⟨final.locals, rfl⟩
  | error fault final =>
      rw [hx] at h
      contradiction

theorem exists_of_answer_eq_error {x : Eval σ α} {frame : Frame σ} {fault : Fault EvalCause}
    {after : σ} (h : answer x frame = .error fault after) :
    ∃ locals, x frame = .error fault ⟨locals, after⟩ := by
  unfold answer at h
  cases hx : x frame with
  | ok b final =>
      rw [hx] at h
      contradiction
  | error fault' final =>
      rw [hx] at h
      cases h
      exact ⟨final.locals, rfl⟩

/-- A block does what its statements do, apart from their bindings. -/
theorem answer_enclosed (x : Eval σ α) (frame : Frame σ) :
    answer (enclosed x) frame = answer x frame := by
  unfold answer enclosed
  cases x frame <;> rfl

/-! ## one statement -/

variable {history : History} {locals : List Binding} {out : σ} {e : Expr} {value : Value}
  {line : Nat}

theorem operand_ok (h : e.eval ⟨history, locals⟩ = .ok value) :
    operand history e ⟨locals, out⟩ = .ok value ⟨locals, out⟩ :=
  EStateM.ofExcept_eq_ok_iff.mpr ⟨h, rfl⟩

theorem operand_error {fault : Fault EvalCause} (h : e.eval ⟨history, locals⟩ = .error fault) :
    operand history e ⟨locals, out⟩ = .error fault ⟨locals, out⟩ :=
  EStateM.ofExcept_eq_error_iff.mpr ⟨h, rfl⟩

theorem keep_eq (record : Record) :
    keep record ⟨locals, out⟩ = .ok () ⟨record.binding?.toList ++ locals, out⟩ := by
  cases record <;> rfl

theorem bindElement_eq (name : Option String) (item : Number) :
    bindElement name item ⟨locals, out⟩ = .ok () ⟨elementBindings name item ++ locals, out⟩ := by
  cases name <;> rfl

variable [Sink σ]

theorem statement_fault {fault : Fault EvalCause}
    (h : e.needed.eval ⟨history, locals⟩ = .error fault) :
    statement history e ⟨locals, out⟩ = .error fault ⟨locals, out⟩ := by
  cases e <;> unfold statement <;> exact EStateM.bind_of_error (operand_error h)

theorem statement_operand (he : e.kind?.isSome = true)
    (h : e.eval ⟨history, locals⟩ = .ok value) :
    statement history e ⟨locals, out⟩ = .ok (.value e.line value) ⟨locals, out⟩ := by
  cases e with
  | literal | var | not | binary =>
      unfold statement
      exact EStateM.bind_of_ok (operand_ok h)
  | assign | print | branch | loop => contradiction

theorem statement_assign (name : String) (h : e.eval ⟨history, locals⟩ = .ok value) :
    statement history (.assign line name e) ⟨locals, out⟩ =
      .ok (.assign line name value) ⟨locals, out⟩ := by
  unfold statement
  exact EStateM.bind_of_ok (operand_ok h)

theorem statement_print (h : e.eval ⟨history, locals⟩ = .ok value) :
    statement history (.print line e) ⟨locals, out⟩ =
      match Sink.write (value.text ++ "\n") out with
      | .ok () after => .ok (.print line value) ⟨locals, after⟩
      | .error reason after => .error ⟨.output reason, line⟩ ⟨locals, after⟩ := by
  unfold statement
  rw [EStateM.bind_of_ok (operand_ok h), EStateM.bind_pure_eq_map]
  simp only [writeLine]
  cases Sink.write (value.text ++ "\n") out <;> rfl

theorem statement_branch {body : List Expr} {otherwise : Option (List Expr)} {taken : Bool}
    (h : e.eval ⟨history, locals⟩ = .ok (.bool taken)) :
    statement history (.branch line e body otherwise) ⟨locals, out⟩ =
      (block history (if taken then body else otherwise.getD []) ⟨locals, out⟩).map
        fun _ => .branch line taken := by
  unfold statement
  rw [EStateM.bind_of_ok (operand_ok h)]
  cases taken with
  | true => exact EStateM.bind_pure_eq_map _ _ _
  | false =>
      cases otherwise with
      | some other => exact EStateM.bind_pure_eq_map _ _ _
      | none =>
          unfold block statements
          rfl

theorem statement_branchFault {body : List Expr} {otherwise : Option (List Expr)}
    {cause : EvalCause} (h : e.eval ⟨history, locals⟩ = .ok value)
    (hcause : value.toBool = .error cause) :
    statement history (.branch line e body otherwise) ⟨locals, out⟩ =
      .error ⟨cause, line⟩ ⟨locals, out⟩ := by
  unfold statement
  rw [EStateM.bind_of_ok (operand_ok h), hcause]
  rfl

/-- One turn of a loop. -/
def turn (history : History) (name : Option String) (body : List Expr) (item : Number) :
    Eval σ Unit :=
  enclosed do
    bindElement name item
    enclosed (statements history body)

theorem answer_turn (name : Option String) (body : List Expr) (item : Number) :
    answer (turn history name body item) ⟨locals, out⟩ =
      answer (statements history body) ⟨elementBindings name item ++ locals, out⟩ := by
  rw [turn, answer_enclosed, answer_bind_of_ok (bindElement_eq name item), answer_enclosed]

theorem statement_loop {name : Option String} {body : List Expr} {items : List Number}
    (h : e.eval ⟨history, locals⟩ = .ok (.array items)) :
    statement history (.loop line name e body) ⟨locals, out⟩ =
      (items.forM (turn history name body) ⟨locals, out⟩).map fun _ => .loop line items.length := by
  unfold statement
  rw [EStateM.bind_of_ok (operand_ok h)]
  exact EStateM.bind_pure_eq_map _ _ _

theorem statement_loopFault {name : Option String} {body : List Expr} {cause : EvalCause}
    (h : e.eval ⟨history, locals⟩ = .ok value) (hcause : value.toArray = .error cause) :
    statement history (.loop line name e body) ⟨locals, out⟩ =
      .error ⟨cause, line⟩ ⟨locals, out⟩ := by
  unfold statement
  rw [EStateM.bind_of_ok (operand_ok h), hcause]
  rfl

/-! ## what statements leave alone -/

theorem locals_of_forM_turn {name : Option String} {body : List Expr} {items : List Number}
    {frame after : Frame σ} (h : items.forM (turn history name body) frame = .ok () after) :
    after.locals = frame.locals := by
  induction items generalizing frame with
  | nil =>
      obtain ⟨-, rfl⟩ := EStateM.pure_eq_ok_iff.mp h
      rfl
  | cons item items ih =>
      obtain ⟨_, between, hturn, hrest⟩ := EStateM.bind_eq_ok_iff.mp h
      rw [ih hrest, locals_of_enclosed hturn]

/-- A statement that has run leaves the bindings as they were. -/
theorem locals_of_statement {frame after : Frame σ} {record : Record}
    (h : statement history e frame = .ok record after) : after.locals = frame.locals := by
  obtain ⟨locals, out⟩ := frame
  cases hneeded : e.needed.eval ⟨history, locals⟩ with
  | error fault =>
      rw [statement_fault hneeded] at h
      contradiction
  | ok value =>
      cases e <;> simp only [Expr.needed] at hneeded
      case assign line name e =>
          rw [statement_assign name hneeded] at h
          cases h
          rfl
      case print line e =>
          rw [statement_print hneeded] at h
          split at h
          · cases h; rfl
          · contradiction
      case branch line condition body otherwise =>
          cases hbool : value.toBool with
          | error cause =>
              rw [statement_branchFault hneeded hbool] at h
              contradiction
          | ok taken =>
              obtain rfl := Value.toBool_eq_ok_iff.mp hbool
              rw [statement_branch hneeded] at h
              obtain ⟨_, hblock, -⟩ := EStateM.Result.map_eq_ok.mp h
              exact locals_of_enclosed hblock
      case loop line name range body =>
          cases harray : value.toArray with
          | error cause =>
              rw [statement_loopFault hneeded harray] at h
              contradiction
          | ok items =>
              obtain rfl := Value.toArray_eq_ok_iff.mp harray
              rw [statement_loop hneeded] at h
              obtain ⟨_, hturns, -⟩ := EStateM.Result.map_eq_ok.mp h
              exact locals_of_forM_turn hturns
      all_goals
        rw [statement_operand rfl hneeded] at h
        cases h
        rfl

end Eval

/-- A top-level statement adds its record to the history. -/
theorem Transcript.step_eq_answer {σ : Type} [Sink σ] (history : History) (e : Expr) (out : σ) :
    step e ⟨history, out⟩ =
      match Eval.answer (Eval.statement history e) ⟨[], out⟩ with
      | .ok record after => .ok () ⟨history ++ [record], after⟩
      | .error fault after => .error fault ⟨history, after⟩ := by
  unfold Eval.answer
  simp only [step]
  cases Eval.statement history e ⟨[], out⟩ <;> rfl

end LineScript
