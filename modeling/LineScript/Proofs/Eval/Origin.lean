import LineScript.Eval.Transcript
import LineScript.Proofs.Expr.Nodes
import LineScript.Proofs.Stateful
import LineScript.Typing

/-!
# LineScript.Proofs.Eval.Origin

Where failures come from.  A node raises a fault when its operands have values
and it fails on them; a node whose operand is a statement raises a fault too,
since a statement has no value.  Nothing else stops a run.

* `Expr.raisedIn_of_eval` — an operand without a value holds a node that raises
  the fault;
* `Transcript.raisedIn_of_evaluate` — so does a program that fails.
-/

namespace LineScript

/-! ## nodes that fail -/

/-- The faults a node raises by itself, when names mean what `scope` says. -/
inductive Raises (scope : Scope) : Expr → Fault EvalCause → Prop where
  /-- A variable that nothing binds. -/
  | unbound (line : Nat) {name : String} (h : scope.value? name = none) :
      Raises scope (.var line name) ⟨.unknownVariable name, line⟩
  /-- A statement in the place of an operand. -/
  | misplaced {node operand : Expr} (hmem : operand ∈ node.operands)
      (h : operand.kind? = none) : Raises scope node ⟨.statementAsValue, operand.line⟩
  | not (line : Nat) {operand : Expr} {value : Value} {cause : EvalCause}
      (h : operand.eval scope = .ok value) (hcause : value.negate = .error cause) :
      Raises scope (.not line operand) ⟨cause, line⟩
  | binary (line : Nat) {op : BinaryOp} {left right : Expr} {l r : Value} {cause : EvalCause}
      (hl : left.eval scope = .ok l) (hr : right.eval scope = .ok r)
      (hcause : op.apply l r = .error cause) : Raises scope (.binary line op left right) ⟨cause, line⟩
  /-- Text that was not accepted. -/
  | print (line : Nat) (value : Expr) (reason : String) :
      Raises scope (.print line value) ⟨.output reason, line⟩
  | branch (line : Nat) {condition : Expr} (body : List Expr) (otherwise : Option (List Expr))
      {value : Value} {cause : EvalCause} (h : condition.eval scope = .ok value)
      (hcause : value.toBool = .error cause) :
      Raises scope (.branch line condition body otherwise) ⟨cause, line⟩
  | loop (line : Nat) (name : Option String) {range : Expr} (body : List Expr) {value : Value}
      {cause : EvalCause} (h : range.eval scope = .ok value)
      (hcause : value.toArray = .error cause) : Raises scope (.loop line name range body) ⟨cause, line⟩

/-- One of the nodes raises the fault, at some point of a run. -/
def RaisedIn (nodes : List Expr) (fault : Fault EvalCause) : Prop :=
  ∃ node ∈ nodes, ∃ scope, Raises scope node fault

theorem RaisedIn.mono {xs ys : List Expr} {fault : Fault EvalCause} (h : RaisedIn xs fault)
    (hsub : xs ⊆ ys) : RaisedIn ys fault := by
  obtain ⟨node, hnode, hraises⟩ := h
  exact ⟨node, hsub hnode, hraises⟩

/-! ## operands -/

namespace Expr

variable {scope : Scope} {fault : Fault EvalCause}

theorem atLine_eq_error_iff {α : Type} {line : Nat} {result : Except EvalCause α} :
    atLine line result = .error fault ↔ ∃ cause, result = .error cause ∧ fault = ⟨cause, line⟩ := by
  rw [atLine, Except.mapError_eq_error_iff]
  simp only [eq_comm]

/-- What stops a node's operand stops the node. -/
theorem raisedIn_of_operand {e operand : Expr} (hmem : operand ∈ e.operands)
    (h : RaisedIn operand.nodes fault ∨
      operand.kind? = none ∧ fault = ⟨.statementAsValue, operand.line⟩) :
    RaisedIn e.nodes fault := by
  rcases h with hraised | ⟨hkind, rfl⟩
  · exact hraised.mono (nodes_subset_of_mem_operands hmem)
  · exact ⟨e, self_mem_nodes e, ⟨[], []⟩, .misplaced hmem hkind⟩

theorem raisedIn_self {e : Expr} (h : Raises scope e fault) : RaisedIn e.nodes fault :=
  ⟨e, self_mem_nodes e, scope, h⟩

/-- A tree without a value is a statement, or holds a node that raises the
fault. -/
theorem raisedIn_or_of_eval {e : Expr} (h : e.eval scope = .error fault) :
    RaisedIn e.nodes fault ∨ e.kind? = none ∧ fault = ⟨.statementAsValue, e.line⟩ := by
  induction e using Expr.eval.induct generalizing fault with
  | case1 line value => simp [eval] at h
  | case2 line name =>
      simp only [eval, Scope.lookup] at h
      split at h
      · contradiction
      · next hnone =>
        cases h
        exact .inl (raisedIn_self (.unbound line hnone))
  | case3 line operand ih =>
      rw [eval] at h
      rcases Except.bind_eq_error_iff.mp h with hoperand | ⟨value, hvalue, h⟩
      · exact .inl (raisedIn_of_operand (by simp [operands]) (ih hoperand))
      · obtain ⟨cause, hcause, rfl⟩ := atLine_eq_error_iff.mp h
        exact .inl (raisedIn_self (.not line hvalue hcause))
  | case4 line op left right ihl ihr =>
      rw [eval] at h
      rcases Except.bind_eq_error_iff.mp h with hleft | ⟨l, hl, h⟩
      · exact .inl (raisedIn_of_operand (by simp [operands]) (ihl hleft))
      · rcases Except.bind_eq_error_iff.mp h with hright | ⟨r, hr, h⟩
        · exact .inl (raisedIn_of_operand (by simp [operands]) (ihr hright))
        · obtain ⟨cause, hcause, rfl⟩ := atLine_eq_error_iff.mp h
          exact .inl (raisedIn_self (.binary line hl hr hcause))
  | _ =>
      cases h
      exact .inr ⟨rfl, rfl⟩

/-- An operand without a value holds a node that raises the fault. -/
theorem raisedIn_of_eval {e : Expr} (hkind : e.kind?.isSome = true)
    (h : e.eval scope = .error fault) : RaisedIn e.nodes fault := by
  rcases raisedIn_or_of_eval h with hraised | ⟨hnone, -⟩
  · exact hraised
  · simp [hnone] at hkind

end Expr

/-! ## running -/

namespace Eval

open EStateM (FailsWith)

variable {σ α β : Type} {P : Fault EvalCause → Prop}

theorem failsWith_bindLocal (b : Binding) : FailsWith P (Eval.bindLocal b : Eval σ Unit) := by
  intro frame fault after h
  cases h

theorem failsWith_keep (record : Record) : FailsWith P (Eval.keep record : Eval σ Unit) := by
  unfold Eval.keep
  cases record.binding? with
  | none => exact .pure ()
  | some b => exact failsWith_bindLocal b

theorem failsWith_bindElement (name : Option String) (item : Number) :
    FailsWith P (Eval.bindElement name item : Eval σ Unit) := by
  refine .bind (failsWith_bindLocal _) fun _ => ?_
  cases name with
  | none => exact .pure ()
  | some name => exact failsWith_bindLocal _

theorem failsWith_enclosed {x : Eval σ α} (h : FailsWith P x) : FailsWith P (Eval.enclosed x) := by
  intro frame fault after hrun
  unfold Eval.enclosed at hrun
  split at hrun
  · contradiction
  · next hx =>
    cases hrun
    exact h _ _ _ hx

/-- The operand of a node fails as the node does. -/
theorem failsWith_operand {e operand : Expr} (history : History) (hmem : operand ∈ e.operands) :
    FailsWith (RaisedIn e.nodes) (Eval.operand history operand : Eval σ Value) := by
  intro frame fault after hrun
  obtain ⟨heval, -⟩ := EStateM.ofExcept_eq_error_iff.mp hrun
  exact Expr.raisedIn_of_operand hmem (Expr.raisedIn_or_of_eval heval)

/-- A step on the value of an operand fails as the node that takes it. -/
theorem failsWith_operand_atLine {e operand : Expr} (history : History)
    (hmem : operand ∈ e.operands) {step : Value → Except EvalCause α}
    {f : α → Eval σ β}
    (hstep : ∀ scope value cause, operand.eval scope = .ok value → step value = .error cause →
      Raises scope e ⟨cause, e.line⟩) (h : ∀ a, FailsWith (RaisedIn e.nodes) (f a)) :
    FailsWith (RaisedIn e.nodes) (do
      let value ← Eval.operand history operand
      let a ← MonadExcept.ofExcept (atLine e.line (step value))
      f a) := by
  intro frame fault after hrun
  rcases EStateM.bind_eq_error_iff.mp hrun with hoperand | ⟨value, between, hvalue, hrun⟩
  · exact failsWith_operand history hmem frame fault after hoperand
  · rcases EStateM.bind_eq_error_iff.mp hrun with hread | ⟨a, between', -, hrest⟩
    · obtain ⟨hread, -⟩ := EStateM.ofExcept_eq_error_iff.mp hread
      obtain ⟨cause, hcause, rfl⟩ := Expr.atLine_eq_error_iff.mp hread
      obtain ⟨heval, -⟩ := EStateM.ofExcept_eq_ok_iff.mp hvalue
      exact Expr.raisedIn_self (hstep _ value cause heval hcause)
    · exact h a between' fault after hrest

/-- A bare operand fails as its nodes do. -/
theorem failsWith_bare {e : Expr} (history : History) (hkind : e.kind?.isSome = true)
    (f : Value → Record) :
    FailsWith (RaisedIn e.nodes)
      (do return f (← Eval.operand history e) : Eval σ Record) := by
  refine .bind ?_ fun _ => .pure _
  intro frame fault after hrun
  obtain ⟨heval, -⟩ := EStateM.ofExcept_eq_error_iff.mp hrun
  exact Expr.raisedIn_of_eval hkind heval

variable [Sink σ]

theorem failsWith_writeLine (line : Nat) (value : Expr) (text : String) :
    FailsWith (RaisedIn (Expr.print line value).nodes) (Eval.writeLine line text : Eval σ Unit) := by
  rintro ⟨locals, out⟩ fault after hrun
  unfold Eval.writeLine at hrun
  cases hwrite : Sink.write (text ++ "\n") out with
  | ok u out' => simp [hwrite] at hrun
  | error reason out' =>
      simp only [hwrite] at hrun
      cases hrun
      exact ⟨_, Expr.self_mem_nodes _, ⟨[], []⟩, .print line value reason⟩

mutual

/-- A statement that fails was stopped by one of its nodes. -/
theorem failsWith_statement (history : History) :
    ∀ e, FailsWith (RaisedIn e.nodes) (Eval.statement history e : Eval σ Record)
  | .assign line name value => by
      unfold Eval.statement
      exact .bind (failsWith_operand history (by simp [Expr.operands])) fun _ => .pure _
  | .print line value => by
      unfold Eval.statement
      exact .bind (failsWith_operand history (by simp [Expr.operands])) fun _ =>
        .bind (failsWith_writeLine line value _) fun _ => .pure _
  | .branch line condition body otherwise => by
      have hbody : Expr.nodesAll body ⊆ (Expr.branch line condition body otherwise).nodes :=
        Expr.nodesAll_subset_of_mem_blocks (by simp [Expr.blocks])
      unfold Eval.statement
      refine failsWith_operand_atLine (e := .branch line condition body otherwise) history
        (by simp [Expr.operands])
        (fun scope value cause h hcause => .branch line body otherwise h hcause) fun taken => ?_
      cases taken with
      | true =>
          have hrun := (failsWith_statements history body).mono fun _ h => h.mono hbody
          exact .bind (failsWith_enclosed hrun) fun _ => .pure _
      | false =>
          cases otherwise with
          | none => exact .bind (.pure _) fun _ => .pure _
          | some other =>
              have hother : Expr.nodesAll other ⊆
                  (Expr.branch line condition body (some other)).nodes :=
                Expr.nodesAll_subset_of_mem_blocks (by simp [Expr.blocks])
              have hrun := (failsWith_statements history other).mono fun _ h => h.mono hother
              exact .bind (failsWith_enclosed hrun) fun _ => .pure _
  | .loop line name range body => by
      have hbody : Expr.nodesAll body ⊆ (Expr.loop line name range body).nodes :=
        Expr.nodesAll_subset_of_mem_blocks (by simp [Expr.blocks])
      have hrun := (failsWith_statements history body).mono fun _ h => h.mono hbody
      unfold Eval.statement
      refine failsWith_operand_atLine (e := .loop line name range body) history
        (by simp [Expr.operands])
        (fun scope value cause h hcause => .loop line name body h hcause) fun items => ?_
      refine .bind (.forM (fun item => ?_) items) fun _ => .pure _
      exact failsWith_enclosed (.bind (failsWith_bindElement name item) fun _ =>
        failsWith_enclosed hrun)
  | .literal line value => by
      unfold Eval.statement
      exact failsWith_bare history rfl _
  | .var line name => by
      unfold Eval.statement
      exact failsWith_bare history rfl _
  | .not line e => by
      unfold Eval.statement
      exact failsWith_bare history rfl _
  | .binary line op left right => by
      unfold Eval.statement
      exact failsWith_bare history rfl _

theorem failsWith_statements (history : History) :
    ∀ es, FailsWith (RaisedIn (Expr.nodesAll es)) (Eval.statements history es : Eval σ Unit)
  | [] => by
      unfold Eval.statements
      exact .pure ()
  | e :: es => by
      have hfirst := (failsWith_statement history e).mono fun _ h =>
        h.mono (List.subset_append_left e.nodes (Expr.nodesAll es))
      have hrest := (failsWith_statements history es).mono fun _ h =>
        h.mono (List.subset_append_right e.nodes (Expr.nodesAll es))
      unfold Eval.statements
      exact .bind hfirst fun record => .bind (failsWith_keep record) fun _ => hrest

end

end Eval

/-- **Every failure has its node**: a program that fails was stopped by a fault
that one of its nodes raises. -/
theorem Transcript.raisedIn_of_evaluate {σ : Type} [Sink σ] {p : Program} {t after : Transcript σ}
    {fault : Fault EvalCause} (h : evaluate p t = .error fault after) :
    RaisedIn (Expr.nodesAll p) fault := by
  induction p generalizing t with
  | nil => cases h
  | cons e p ih =>
      rw [evaluate] at h
      rcases EStateM.bind_eq_error_iff.mp h with hstep | ⟨_, between, -, hrest⟩
      · obtain ⟨history, out⟩ := t
        unfold step at hstep
        cases hrun : Eval.statement history e ⟨[], out⟩ with
        | ok record frame => simp [hrun] at hstep
        | error fault' frame =>
            simp only [hrun] at hstep
            cases hstep
            exact (Eval.failsWith_statement history e _ _ _ hrun).mono
              (List.subset_append_left e.nodes (Expr.nodesAll p))
      · exact (ih hrest).mono (List.subset_append_right e.nodes (Expr.nodesAll p))

end LineScript
