import LineScript.Proofs.Eval.Equations
import LineScript.Proofs.Eval.Simulation

/-!
# LineScript.Proofs.Eval.Lexical

Lexical scoping.  The rules of this module say what statements do when a scope is
nothing but a partial function from names to values: an assignment extends it for
the statements after it in the same block, a block runs in a copy of it that is
thrown away at its end, and so does every turn of a loop, with the element bound.
A run has no such function.  It searches the bindings of the enclosing blocks and
then the history, and it does what the rules say of what it finds there.

* `evaluates_iff`, `executes_iff`, `executesAll_iff` — operands, statements and
  blocks follow the rules;
* `lexical_scoping` — so do programs, and nothing but the values of names matters.
-/

namespace LineScript

/-! ## the rules -/

/-- What names mean: a value, or nothing. -/
abbrev Env := String → Option Value

namespace Env

/-- Give a name a value. -/
def set (env : Env) (name : String) (value : Value) : Env :=
  fun other => if name = other then some value else env other

/-- What names mean after a statement: an assignment gives its name a value, and
every other statement leaves all names alone. -/
def after (env : Env) : Record → Env
  | .assign _ name value => env.set name value
  | .value .. | .print .. | .branch .. | .loop .. => env

/-- What names mean in the body of a loop, at one of its elements. -/
def atElement (env : Env) (name : Option String) (item : Number) : Env :=
  match name with
  | some name => (env.set loopName (.int item)).set name (.int item)
  | none => env.set loopName (.int item)

end Env

/-- The value of an operand, or why it has none. -/
inductive Evaluates (env : Env) : Expr → Except (Fault EvalCause) Value → Prop where
  | literal (line : Nat) (value : Scalar) : Evaluates env (.literal line value) (.ok (.scalar value))
  | bound (line : Nat) {name : String} {value : Value} (h : env name = some value) :
      Evaluates env (.var line name) (.ok value)
  | unbound (line : Nat) {name : String} (h : env name = none) :
      Evaluates env (.var line name) (.error ⟨.unknownVariable name, line⟩)
  | not (line : Nat) {operand : Expr} {value : Value} (h : Evaluates env operand (.ok value)) :
      Evaluates env (.not line operand) (atLine line value.negate)
  | notFault (line : Nat) {operand : Expr} {fault : Fault EvalCause}
      (h : Evaluates env operand (.error fault)) : Evaluates env (.not line operand) (.error fault)
  | binary (line : Nat) (op : BinaryOp) {left right : Expr} {l r : Value}
      (hl : Evaluates env left (.ok l)) (hr : Evaluates env right (.ok r)) :
      Evaluates env (.binary line op left right) (atLine line (op.apply l r))
  | leftFault (line : Nat) (op : BinaryOp) {left : Expr} (right : Expr) {fault : Fault EvalCause}
      (hl : Evaluates env left (.error fault)) :
      Evaluates env (.binary line op left right) (.error fault)
  | rightFault (line : Nat) (op : BinaryOp) {left right : Expr} {l : Value}
      {fault : Fault EvalCause} (hl : Evaluates env left (.ok l))
      (hr : Evaluates env right (.error fault)) :
      Evaluates env (.binary line op left right) (.error fault)
  | statement {e : Expr} (h : e.kind? = none) : Evaluates env e (.error ⟨.statementAsValue, e.line⟩)

section

variable {σ : Type} [Sink σ]

mutual

/-- What a statement leaves: its record or its fault, and the sink after it. -/
inductive Executes : Env → Expr → σ → Answer σ Record → Prop where
  | fault {env : Env} {e : Expr} {out : σ} {fault : Fault EvalCause}
      (h : Evaluates env e.needed (.error fault)) : Executes env e out (.error fault out)
  | operand {env : Env} {e : Expr} {out : σ} {value : Value} (he : e.kind?.isSome = true)
      (h : Evaluates env e (.ok value)) : Executes env e out (.ok (.value e.line value) out)
  | assign {env : Env} (line : Nat) (name : String) {e : Expr} {out : σ} {value : Value}
      (h : Evaluates env e (.ok value)) :
      Executes env (.assign line name e) out (.ok (.assign line name value) out)
  | print {env : Env} (line : Nat) {e : Expr} {out after : σ} {value : Value}
      (h : Evaluates env e (.ok value)) (hwrite : Sink.write (value.text ++ "\n") out = .ok () after) :
      Executes env (.print line e) out (.ok (.print line value) after)
  | refused {env : Env} (line : Nat) {e : Expr} {out after : σ} {value : Value} {reason : String}
      (h : Evaluates env e (.ok value))
      (hwrite : Sink.write (value.text ++ "\n") out = .error reason after) :
      Executes env (.print line e) out (.error ⟨.output reason, line⟩ after)
  | branch {env : Env} (line : Nat) {condition : Expr} {body : List Expr}
      {otherwise : Option (List Expr)} {out : σ} {taken : Bool} {records : List Record}
      {answer : Answer σ Unit} (h : Evaluates env condition (.ok (.bool taken)))
      (hbody : ExecutesAll env (if taken then body else otherwise.getD []) out records answer) :
      Executes env (.branch line condition body otherwise) out
        (answer.map fun _ => .branch line taken)
  | branchFault {env : Env} (line : Nat) {condition : Expr} (body : List Expr)
      (otherwise : Option (List Expr)) {out : σ} {value : Value} {cause : EvalCause}
      (h : Evaluates env condition (.ok value)) (hcause : value.toBool = .error cause) :
      Executes env (.branch line condition body otherwise) out (.error ⟨cause, line⟩ out)
  | loop {env : Env} (line : Nat) {name : Option String} {range : Expr} {body : List Expr}
      {out : σ} {items : List Number} {answer : Answer σ Unit}
      (h : Evaluates env range (.ok (.array items)))
      (hbody : Iterates env name body items out answer) :
      Executes env (.loop line name range body) out (answer.map fun _ => .loop line items.length)
  | loopFault {env : Env} (line : Nat) (name : Option String) {range : Expr} (body : List Expr)
      {out : σ} {value : Value} {cause : EvalCause} (h : Evaluates env range (.ok value))
      (hcause : value.toArray = .error cause) :
      Executes env (.loop line name range body) out (.error ⟨cause, line⟩ out)

/-- What statements leave that follow each other: the records of those that have
run, and how the last of them ended.  Each sees the assignments before it. -/
inductive ExecutesAll : Env → List Expr → σ → List Record → Answer σ Unit → Prop where
  | nil (env : Env) (out : σ) : ExecutesAll env [] out [] (.ok () out)
  | stop {env : Env} {e : Expr} (es : List Expr) {out after : σ} {fault : Fault EvalCause}
      (h : Executes env e out (.error fault after)) :
      ExecutesAll env (e :: es) out [] (.error fault after)
  | cons {env : Env} {e : Expr} {es : List Expr} {out between : σ} {record : Record}
      {records : List Record} {answer : Answer σ Unit}
      (h : Executes env e out (.ok record between))
      (hrest : ExecutesAll (env.after record) es between records answer) :
      ExecutesAll env (e :: es) out (record :: records) answer

/-- What a loop leaves that goes through elements in order.  Every turn starts from
the names around the loop, so none sees what an earlier one assigned. -/
inductive Iterates : Env → Option String → List Expr → List Number → σ → Answer σ Unit → Prop where
  | nil (env : Env) (name : Option String) (body : List Expr) (out : σ) :
      Iterates env name body [] out (.ok () out)
  | stop {env : Env} {name : Option String} {body : List Expr} {item : Number}
      (items : List Number) {out after : σ} {records : List Record} {fault : Fault EvalCause}
      (h : ExecutesAll (env.atElement name item) body out records (.error fault after)) :
      Iterates env name body (item :: items) out (.error fault after)
  | cons {env : Env} {name : Option String} {body : List Expr} {item : Number}
      {items : List Number} {out between : σ} {records : List Record} {answer : Answer σ Unit}
      (h : ExecutesAll (env.atElement name item) body out records (.ok () between))
      (hrest : Iterates env name body items between answer) :
      Iterates env name body (item :: items) out answer

end

end

/-! ## what a search finds -/

namespace Scope

variable (history : History) (locals : List Binding)

/-- Outside all blocks only the history counts. -/
theorem value?_nil : value? ⟨history, []⟩ = history.value? := rfl

theorem value?_cons (b : Binding) :
    value? ⟨history, b :: locals⟩ = Env.set (value? ⟨history, locals⟩) b.name b.value := by
  funext name
  simp only [value?, localValue?_cons, Env.set]
  split <;> rfl

/-- The binding that a record leaves in a block. -/
theorem value?_after (record : Record) :
    value? ⟨history, record.binding?.toList ++ locals⟩ =
      Env.after (value? ⟨history, locals⟩) record := by
  cases record with
  | assign line name value => exact value?_cons history locals ⟨name, value⟩
  | _ => rfl

theorem value?_atElement (name : Option String) (item : Number) :
    value? ⟨history, elementBindings name item ++ locals⟩ =
      Env.atElement (value? ⟨history, locals⟩) name item := by
  cases name with
  | none => exact value?_cons history locals ⟨loopName, .int item⟩
  | some name =>
      show value? ⟨history, ⟨name, .int item⟩ :: ⟨loopName, .int item⟩ :: locals⟩ = _
      rw [value?_cons, value?_cons]
      rfl

end Scope

/-- The record of a top-level statement. -/
theorem History.value?_append (history : History) (record : Record) :
    History.value? (history ++ [record]) = Env.after history.value? record := by
  funext name
  rw [History.value?_append_singleton]
  cases record <;> rfl

/-! ## operands -/

theorem evaluates_eval (scope : Scope) (e : Expr) :
    Evaluates scope.value? e (e.eval scope) := by
  induction e using Expr.eval.induct with
  | case1 line value => exact .literal line value
  | case2 line name =>
      rw [Expr.eval, Scope.lookup]
      split
      · next h => exact .bound line h
      · next h => exact .unbound line h
  | case3 line operand ih =>
      rw [Expr.eval]
      cases h : operand.eval scope with
      | ok value =>
          rw [h] at ih
          exact .not line ih
      | error fault =>
          rw [h] at ih
          exact .notFault line ih
  | case4 line op left right ihl ihr =>
      rw [Expr.eval]
      cases hl : left.eval scope with
      | error fault =>
          rw [hl] at ihl
          exact .leftFault line op right ihl
      | ok l =>
          rw [hl] at ihl
          cases hr : right.eval scope with
          | error fault =>
              rw [hr] at ihr
              exact .rightFault line op ihl ihr
          | ok r =>
              rw [hr] at ihr
              exact .binary line op ihl ihr
  | _ => exact .statement rfl

theorem eval_of_evaluates {scope : Scope} {e : Expr} {result : Except (Fault EvalCause) Value}
    (h : Evaluates scope.value? e result) : e.eval scope = result := by
  induction h with
  | literal line value => rfl
  | bound line h => rw [Expr.eval, Scope.lookup, h]
  | unbound line h => rw [Expr.eval, Scope.lookup, h]
  | not line h ih => rw [Expr.eval, Except.bind_of_ok ih]
  | notFault line h ih => rw [Expr.eval, ih]; rfl
  | binary line op hl hr ihl ihr => rw [Expr.eval, Except.bind_of_ok ihl, Except.bind_of_ok ihr]
  | leftFault line op right hl ihl => rw [Expr.eval, ihl]; rfl
  | rightFault line op hl hr ihl ihr => rw [Expr.eval, Except.bind_of_ok ihl, ihr]; rfl
  | @statement e h =>
      cases e with
      | literal | var | not | binary => contradiction
      | assign | print | branch | loop => rfl

theorem evaluates_iff {scope : Scope} {e : Expr} {result : Except (Fault EvalCause) Value} :
    Evaluates scope.value? e result ↔ e.eval scope = result :=
  ⟨eval_of_evaluates, fun h => h ▸ evaluates_eval scope e⟩

/-! ## the rules are followed -/

section

variable {σ : Type} [Sink σ] (history : History)

open Eval

theorem executes_of_needed {e : Expr} {locals : List Binding} {out : σ}
    (h : ∀ value, e.needed.eval ⟨history, locals⟩ = .ok value →
      Executes (Scope.value? ⟨history, locals⟩) e out (answer (statement history e) ⟨locals, out⟩)) :
    Executes (Scope.value? ⟨history, locals⟩) e out (answer (statement history e) ⟨locals, out⟩) := by
  cases hneeded : e.needed.eval ⟨history, locals⟩ with
  | ok value => exact h value hneeded
  | error fault =>
      rw [answer, statement_fault hneeded]
      exact .fault (evaluates_iff.mpr hneeded)

theorem executes_operand {e : Expr} (he : e.kind?.isSome = true) (locals : List Binding) (out : σ) :
    Executes (Scope.value? ⟨history, locals⟩) e out (answer (statement history e) ⟨locals, out⟩) := by
  refine executes_of_needed history fun value h => ?_
  have hself : e.needed = e := by
    cases e with
    | literal | var | not | binary => rfl
    | assign | print | branch | loop => contradiction
  rw [hself] at h
  rw [answer, statement_operand he h]
  exact .operand he (evaluates_iff.mpr h)

/-- The turns of a loop follow the rules if its body does. -/
theorem iterates_forM {name : Option String} {body : List Expr}
    (hbody : ∀ (locals : List Binding) (out : σ), ∃ records,
      ExecutesAll (Scope.value? ⟨history, locals⟩) body out records
        (answer (statements history body) ⟨locals, out⟩))
    (items : List Number) (locals : List Binding) (out : σ) :
    Iterates (Scope.value? ⟨history, locals⟩) name body items out
      (answer (items.forM (turn history name body)) ⟨locals, out⟩) := by
  induction items generalizing out with
  | nil => exact .nil _ name body out
  | cons item items ih =>
      obtain ⟨records, hfirst⟩ := hbody (elementBindings name item ++ locals) out
      rw [Scope.value?_atElement, ← answer_turn] at hfirst
      show Iterates _ name body (item :: items) out
        (answer (turn history name body item >>= fun _ => items.forM (turn history name body)) _)
      cases hrun : turn history name body item ⟨locals, out⟩ with
      | error fault after =>
          rw [answer_bind_of_error hrun]
          rw [answer, hrun] at hfirst
          exact .stop items hfirst
      | ok u after =>
          obtain rfl : after.locals = locals := locals_of_enclosed hrun
          rw [answer_bind_of_ok hrun]
          rw [answer, hrun] at hfirst
          exact .cons hfirst (ih after.out)

mutual

theorem executes_statement : ∀ (e : Expr) (locals : List Binding) (out : σ),
    Executes (Scope.value? ⟨history, locals⟩) e out (answer (statement history e) ⟨locals, out⟩)
  | .assign line name e, locals, out => by
      refine executes_of_needed history fun value (h : e.eval _ = _) => ?_
      rw [answer, statement_assign name h]
      exact .assign line name (evaluates_iff.mpr h)
  | .print line e, locals, out => by
      refine executes_of_needed history fun value (h : e.eval _ = _) => ?_
      rw [answer, statement_print h]
      split
      · next hwrite => exact .print line (evaluates_iff.mpr h) hwrite
      · next hwrite => exact .refused line (evaluates_iff.mpr h) hwrite
  | .branch line condition body otherwise, locals, out => by
      refine executes_of_needed history fun value (h : condition.eval _ = _) => ?_
      cases hbool : value.toBool with
      | error cause =>
          rw [answer, statement_branchFault h hbool]
          exact .branchFault line body otherwise (evaluates_iff.mpr h) hbool
      | ok taken =>
          obtain rfl := Value.toBool_eq_ok_iff.mp hbool
          have hbody : ∃ records, ExecutesAll (Scope.value? ⟨history, locals⟩)
              (if taken then body else otherwise.getD []) out records
              (answer (statements history (if taken then body else otherwise.getD []))
                ⟨locals, out⟩) := by
            cases taken with
            | true => exact executesAll_statements body locals out
            | false =>
                cases otherwise with
                | some other => exact executesAll_statements other locals out
                | none => exact ⟨[], by unfold statements; exact .nil _ out⟩
          obtain ⟨records, hbody⟩ := hbody
          rw [answer, statement_branch h, EStateM.Result.mapState_map]
          rw [← answer_enclosed] at hbody
          exact .branch line (evaluates_iff.mpr h) hbody
  | .loop line name range body, locals, out => by
      refine executes_of_needed history fun value (h : range.eval _ = _) => ?_
      cases harray : value.toArray with
      | error cause =>
          rw [answer, statement_loopFault h harray]
          exact .loopFault line name body (evaluates_iff.mpr h) harray
      | ok items =>
          obtain rfl := Value.toArray_eq_ok_iff.mp harray
          rw [answer, statement_loop h, EStateM.Result.mapState_map]
          exact .loop line (evaluates_iff.mpr h)
            (iterates_forM history (executesAll_statements body) items locals out)
  | .literal line value, locals, out => executes_operand history rfl locals out
  | .var line name, locals, out => executes_operand history rfl locals out
  | .not line e, locals, out => executes_operand history rfl locals out
  | .binary line op left right, locals, out => executes_operand history rfl locals out

theorem executesAll_statements : ∀ (es : List Expr) (locals : List Binding) (out : σ),
    ∃ records, ExecutesAll (Scope.value? ⟨history, locals⟩) es out records
      (answer (statements history es) ⟨locals, out⟩)
  | [], locals, out => ⟨[], by unfold statements; exact .nil _ out⟩
  | e :: es, locals, out => by
      have hfirst := executes_statement e locals out
      unfold statements
      cases hrun : statement history e ⟨locals, out⟩ with
      | error fault after =>
          rw [answer_bind_of_error hrun]
          rw [answer, hrun] at hfirst
          exact ⟨[], .stop es hfirst⟩
      | ok record after =>
          obtain rfl : after.locals = locals := locals_of_statement hrun
          obtain ⟨records, hrest⟩ :=
            executesAll_statements es (record.binding?.toList ++ after.locals) after.out
          rw [Scope.value?_after] at hrest
          rw [answer_bind_of_ok hrun, answer_bind_of_ok (keep_eq record)]
          rw [answer, hrun] at hfirst
          exact ⟨record :: records, .cons hfirst hrest⟩

end

mutual

/-- What the rules allow for a statement is what it leaves. -/
theorem answer_of_executes {env : Env} {e : Expr} {out : σ} {result : Answer σ Record} :
    Executes env e out result → ∀ locals, env = Scope.value? ⟨history, locals⟩ →
      answer (statement history e) ⟨locals, out⟩ = result
  | .fault h, locals, henv => by
      subst henv
      rw [answer, statement_fault (eval_of_evaluates h)]
      rfl
  | .operand he h, locals, henv => by
      subst henv
      rw [answer, statement_operand he (eval_of_evaluates h)]
      rfl
  | .assign line name h, locals, henv => by
      subst henv
      rw [answer, statement_assign name (eval_of_evaluates h)]
      rfl
  | .print line h hwrite, locals, henv => by
      subst henv
      rw [answer, statement_print (eval_of_evaluates h), hwrite]
      rfl
  | .refused line h hwrite, locals, henv => by
      subst henv
      rw [answer, statement_print (eval_of_evaluates h), hwrite]
      rfl
  | .branch line h hbody, locals, henv => by
      have hanswer := answer_of_executesAll hbody locals henv
      subst henv
      rw [answer, statement_branch (eval_of_evaluates h), EStateM.Result.mapState_map, ← hanswer,
        ← answer_enclosed]
      rfl
  | .branchFault line body otherwise h hcause, locals, henv => by
      subst henv
      rw [answer, statement_branchFault (eval_of_evaluates h) hcause]
      rfl
  | .loop line h hbody, locals, henv => by
      have hanswer := answer_of_iterates hbody locals henv
      subst henv
      rw [answer, statement_loop (eval_of_evaluates h), EStateM.Result.mapState_map, ← hanswer]
      rfl
  | .loopFault line name body h hcause, locals, henv => by
      subst henv
      rw [answer, statement_loopFault (eval_of_evaluates h) hcause]
      rfl

theorem answer_of_executesAll {env : Env} {es : List Expr} {out : σ} {records : List Record}
    {result : Answer σ Unit} :
    ExecutesAll env es out records result → ∀ locals, env = Scope.value? ⟨history, locals⟩ →
      answer (statements history es) ⟨locals, out⟩ = result
  | .nil env out, locals, henv => by
      unfold statements
      rfl
  | .stop es h, locals, henv => by
      obtain ⟨_, hrun⟩ := exists_of_answer_eq_error (answer_of_executes h locals henv)
      unfold statements
      rw [answer_bind_of_error hrun]
  | @ExecutesAll.cons _ _ _ _ _ _ _ record _ _ h hrest, locals, henv => by
      obtain ⟨_, hrun⟩ := exists_of_answer_eq_ok (answer_of_executes h locals henv)
      obtain rfl := locals_of_statement hrun
      unfold statements
      rw [answer_bind_of_ok hrun, answer_bind_of_ok (keep_eq record)]
      exact answer_of_executesAll hrest _ (by rw [henv, Scope.value?_after])

theorem answer_of_iterates {env : Env} {name : Option String} {body : List Expr}
    {items : List Number} {out : σ} {result : Answer σ Unit} :
    Iterates env name body items out result → ∀ locals, env = Scope.value? ⟨history, locals⟩ →
      answer (items.forM (turn history name body)) ⟨locals, out⟩ = result
  | .nil env name body out, locals, henv => rfl
  | @Iterates.stop _ _ _ name _ item items _ _ _ _ h, locals, henv => by
      have hturn := answer_of_executesAll h (elementBindings name item ++ locals)
        (by rw [henv, Scope.value?_atElement])
      rw [← answer_turn] at hturn
      obtain ⟨_, hrun⟩ := exists_of_answer_eq_error hturn
      exact answer_bind_of_error hrun
  | @Iterates.cons _ _ _ name _ item _ _ _ _ _ h hrest, locals, henv => by
      have hturn := answer_of_executesAll h (elementBindings name item ++ locals)
        (by rw [henv, Scope.value?_atElement])
      rw [← answer_turn] at hturn
      obtain ⟨_, hrun⟩ := exists_of_answer_eq_ok hturn
      obtain rfl := locals_of_enclosed hrun
      exact (answer_bind_of_ok hrun).trans (answer_of_iterates hrest _ henv)

end

theorem executes_iff {e : Expr} {locals : List Binding} {out : σ} {result : Answer σ Record} :
    answer (statement history e) ⟨locals, out⟩ = result ↔
      Executes (Scope.value? ⟨history, locals⟩) e out result :=
  ⟨fun h => h ▸ executes_statement history e locals out,
    fun h => answer_of_executes history h locals rfl⟩

theorem executesAll_iff {body : List Expr} {locals : List Binding} {out : σ}
    {result : Answer σ Unit} :
    answer (block history body) ⟨locals, out⟩ = result ↔
      ∃ records, ExecutesAll (Scope.value? ⟨history, locals⟩) body out records result := by
  rw [block, answer_enclosed]
  constructor
  · rintro rfl
    exact executesAll_statements history body locals out
  · rintro ⟨records, h⟩
    exact answer_of_executesAll history h locals rfl

/-! ## programs -/

/-- What a run of a program leaves, by the records it adds and how it ends. -/
def Answer.transcript (history : History) (records : List Record) (result : Answer σ Unit) :
    EStateM.Result (Fault EvalCause) (Transcript σ) Unit :=
  result.mapState fun out => ⟨history ++ records, out⟩

theorem evaluate_of_executesAll {p : Program} {out : σ} {records : List Record}
    {result : Answer σ Unit} (h : ExecutesAll history.value? p out records result) :
    Transcript.evaluate p ⟨history, out⟩ = result.transcript history records := by
  induction p generalizing history out records with
  | nil =>
      cases h
      simp [Transcript.evaluate, Answer.transcript, EStateM.Result.mapState, pure, EStateM.pure]
  | cons e p ih =>
      rw [Transcript.evaluate]
      have hstep := Transcript.step_eq_answer history e out
      cases h with
      | stop _ hstop =>
          rw [← Scope.value?_nil] at hstop
          rw [(executes_iff history).mpr hstop] at hstep
          rw [EStateM.bind_of_error hstep]
          simp [Answer.transcript, EStateM.Result.mapState]
      | @cons _ _ _ _ _ record records _ hfirst hrest =>
          rw [← Scope.value?_nil] at hfirst
          rw [(executes_iff history).mpr hfirst] at hstep
          rw [← History.value?_append] at hrest
          rw [EStateM.bind_of_ok hstep, ih _ hrest]
          simp [Answer.transcript]

theorem exists_executesAll (p : Program) (out : σ) :
    ∃ records result, ExecutesAll history.value? p out records result := by
  obtain ⟨records, h⟩ := executesAll_statements history p [] out
  exact ⟨records, _, h⟩

theorem evaluate_iff {p : Program} {out : σ}
    {final : EStateM.Result (Fault EvalCause) (Transcript σ) Unit} :
    Transcript.evaluate p ⟨history, out⟩ = final ↔
      ∃ records result, ExecutesAll history.value? p out records result ∧
        final = result.transcript history records := by
  constructor
  · rintro rfl
    obtain ⟨records, result, h⟩ := exists_executesAll history p out
    exact ⟨records, result, h, evaluate_of_executesAll history h⟩
  · rintro ⟨records, result, h, rfl⟩
    exact evaluate_of_executesAll history h

/-- **Lexical scoping**: statements, blocks and programs leave exactly what the
rules say of the function that looks names up.  So where all names mean the same,
everything runs the same. -/
theorem lexical_scoping (locals : List Binding) :
    (∀ (e : Expr) (out : σ) result, answer (statement history e) ⟨locals, out⟩ = result ↔
      Executes (Scope.value? ⟨history, locals⟩) e out result) ∧
    (∀ (body : List Expr) (out : σ) result, answer (block history body) ⟨locals, out⟩ = result ↔
      ∃ records, ExecutesAll (Scope.value? ⟨history, locals⟩) body out records result) ∧
    (∀ (p : Program) (out : σ) final, Transcript.evaluate p ⟨history, out⟩ = final ↔
      ∃ records result, ExecutesAll history.value? p out records result ∧
        final = result.transcript history records) ∧
    (∀ history' locals',
      (∀ name, Scope.value? ⟨history, locals⟩ name = Scope.value? ⟨history', locals'⟩ name) →
        (∀ (e : Expr) (out : σ), answer (statement history e) ⟨locals, out⟩ =
          answer (statement history' e) ⟨locals', out⟩) ∧
        (∀ (body : List Expr) (out : σ), answer (block history body) ⟨locals, out⟩ =
          answer (block history' body) ⟨locals', out⟩)) ∧
    (∀ history', history.Agree history' → ∀ (p : Program) (out : σ), ∃ records result,
      Transcript.evaluate p ⟨history, out⟩ = Answer.transcript history records result ∧
        Transcript.evaluate p ⟨history', out⟩ = Answer.transcript history' records result) := by
  refine ⟨fun e out result => executes_iff history, fun body out result => executesAll_iff history,
    fun p out final => evaluate_iff history, ?_, ?_⟩
  · intro history' locals' hsame
    have henv : Scope.value? ⟨history, locals⟩ = Scope.value? ⟨history', locals'⟩ := funext hsame
    constructor
    · intro e out
      rw [executes_iff, henv, ← executes_iff]
    · intro body out
      rw [executesAll_iff, henv, ← executesAll_iff]
  · intro history' hagree p out
    have henv : history.value? = history'.value? := funext hagree
    obtain ⟨records, result, h⟩ := exists_executesAll history p out
    have h' := h
    rw [henv] at h'
    exact ⟨records, result, evaluate_of_executesAll history h, evaluate_of_executesAll history' h'⟩

end

/-- A block's binding that hides a global, a later record that hides an earlier
one, and a single record mean the same. -/
theorem lexical_scoping_hidden_value :
    let hidden : History := [.assign 1 "x" (.int 1)]
    let later : History := [.assign 1 "x" (.int 1), .print 2 (.int 1), .assign 3 "x" (.int 2)]
    let single : History := [.assign 1 "x" (.int 2)]
    let e : Expr := .print 4 (.var 4 "x")
    Eval.answer (Eval.statement hidden e) ⟨[⟨"x", .int 2⟩], ({} : Buffer)⟩ =
        Eval.answer (Eval.statement single e) ⟨[], {}⟩ ∧
      ∃ records result,
        Transcript.evaluate [e] ⟨later, ({} : Buffer)⟩ = Answer.transcript later records result ∧
          Transcript.evaluate [e] ⟨single, {}⟩ = Answer.transcript single records result := by
  intro hidden later single e
  have hvalue : ∀ name, Scope.value? ⟨hidden, [⟨"x", .int 2⟩]⟩ name =
      Scope.value? ⟨single, []⟩ name := by
    intro name
    by_cases h : "x" = name <;>
      simp [hidden, single, h, Scope.value?, History.value?, localValue?, Record.binding?]
  have hagree : later.Agree single := by
    intro name
    by_cases h : "x" = name <;>
      simp [later, single, h, History.value?, localValue?, Record.binding?]
  obtain ⟨-, -, -, hsame, -⟩ := lexical_scoping (σ := Buffer) hidden [⟨"x", .int 2⟩]
  obtain ⟨-, -, -, -, hrun⟩ := lexical_scoping (σ := Buffer) later []
  exact ⟨(hsame single [] hvalue).1 e {}, hrun single hagree [e] {}⟩

end LineScript
