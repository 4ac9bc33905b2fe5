import LineScript.Proofs.Renaming.Reading
import Mathlib

/-!
# LineScript.Proofs.Renaming.Running

Checking and running renamed programs.  The check looks at no name and no number.  A
run compares names with each other, and otherwise hands names and numbers on to its
records and its fault, so that a renamed program prints the same and leaves the renamed
records, or fails with the renamed fault.

* `Renaming.checkAll_exprs` — the check of a program;
* `Renaming.eval_eq` — operands;
* `Renaming.evaluate_eq` — programs;
* `Renaming.runSource_eq` — texts with renamed lines of tokens;
* `names_interchangeable` — new names alone, from reading to running.
-/

namespace LineScript

/-! ## causes without a name -/

/-- The cause is about no variable. -/
def EvalCause.Nameless (cause : EvalCause) : Prop := ∀ name, cause ≠ .unknownVariable name

namespace Value

theorem number_nameless (v : Value) : v.number.FailsWith EvalCause.Nameless := by
  cases v with
  | scalar value => exact .ok _
  | array items => exact .error nofun

theorem toBool_nameless (v : Value) : v.toBool.FailsWith EvalCause.Nameless := by
  unfold toBool
  split
  · exact .ok _
  · exact .error nofun

theorem toArray_nameless (v : Value) : v.toArray.FailsWith EvalCause.Nameless := by
  unfold toArray
  split
  · exact .ok _
  · exact .error nofun

theorem negate_nameless (v : Value) : v.negate.FailsWith EvalCause.Nameless :=
  .bind v.toBool_nameless fun _ => .ok _

end Value

namespace BinaryOp

theorem arithmetic_nameless (op : BinaryOp) (left right : Number) :
    (op.arithmetic left right).FailsWith EvalCause.Nameless := by
  unfold arithmetic
  split
  · exact .error nofun
  · split
    · exact .error nofun
    · split
      · exact .ok _
      · exact .error nofun

theorem rangeItems_nameless (start stop : Number) (inclusive : Bool) :
    (rangeItems start stop inclusive).FailsWith EvalCause.Nameless := by
  unfold rangeItems
  split
  · exact .error nofun
  · dsimp only
    split
    · exact .error nofun
    · exact .ok _

/-- Operators fail for what their operands are, and never for a name. -/
theorem apply_nameless (op : BinaryOp) (left right : Value) :
    (op.apply left right).FailsWith EvalCause.Nameless := by
  cases op with
  | add | sub | mul | div =>
      exact .bind left.number_nameless fun l => .bind right.number_nameless fun r =>
        .bind (arithmetic_nameless _ l r) fun _ => .ok _
  | equal | greater | greaterEqual | less | lessEqual =>
      exact .bind left.number_nameless fun _ => .bind right.number_nameless fun _ => .ok _
  | and =>
      refine .bind left.toBool_nameless fun b => ?_
      cases b with
      | true => exact .bind right.toBool_nameless fun _ => .ok _
      | false => exact .ok _
  | or =>
      refine .bind left.toBool_nameless fun b => ?_
      cases b with
      | true => exact .ok _
      | false => exact .bind right.toBool_nameless fun _ => .ok _
  | xor => exact .bind left.toBool_nameless fun _ => .bind right.toBool_nameless fun _ => .ok _
  | isIn => exact .bind left.number_nameless fun _ => .bind right.toArray_nameless fun _ => .ok _
  | range | rangeInclusive =>
      exact .bind left.number_nameless fun l => .bind right.number_nameless fun r =>
        .bind (rangeItems_nameless l r _) fun _ => .ok _

end BinaryOp

namespace Renaming

variable (ρ : Renaming)

/-! ## the check -/

theorem kind?_expr (e : Expr) : (ρ.expr e).kind? = e.kind? := by
  cases e with
  | branch _ _ _ otherwise => cases otherwise <;> rfl
  | literal | var | not | binary | assign | print | loop => rfl

theorem violation?_expr (e : Expr) : (ρ.expr e).violation? = e.violation? := by
  cases e with
  | branch _ condition _ otherwise =>
      cases otherwise <;> simp only [expr, Expr.violation?, ρ.kind?_expr]
  | literal | var | not | binary | assign | print | loop =>
      simp only [expr, Expr.violation?, ρ.kind?_expr]

theorem line_expr (e : Expr) : (ρ.expr e).line = ρ.line e.line := by
  cases e with
  | branch _ _ _ otherwise => cases otherwise <;> rfl
  | literal | var | not | binary | assign | print | loop => rfl

theorem checkNode_eq (e : Expr) :
    (ρ.expr e).checkNode = e.checkNode.bimap (ρ.fault id) id := by
  unfold Expr.checkNode
  rw [ρ.violation?_expr, ρ.line_expr]
  cases e.violation? <;> rfl

mutual

/-- The check of a renamed tree. -/
theorem check_expr : (e : Expr) → (ρ.expr e).check = e.check.bimap (ρ.fault id) id
  | .literal line value => rfl
  | .var line name => rfl
  | .not line operand => by
      have hnode := ρ.checkNode_eq (.not line operand)
      rw [expr] at hnode ⊢
      rw [Expr.check, Expr.check, hnode]
      exact Except.bimap_bind _ fun _ => check_expr operand
  | .binary line op left right => by
      have hnode := ρ.checkNode_eq (.binary line op left right)
      rw [expr] at hnode ⊢
      rw [Expr.check, Expr.check, hnode, check_expr left, check_expr right]
      exact Except.bimap_bind _ fun _ => Except.bimap_bind _ fun _ => rfl
  | .assign line name value => by
      have hnode := ρ.checkNode_eq (.assign line name value)
      rw [expr] at hnode ⊢
      rw [Expr.check, Expr.check, hnode]
      exact Except.bimap_bind _ fun _ => check_expr value
  | .print line value => by
      have hnode := ρ.checkNode_eq (.print line value)
      rw [expr] at hnode ⊢
      rw [Expr.check, Expr.check, hnode]
      exact Except.bimap_bind _ fun _ => check_expr value
  | .branch line condition body none => by
      have hnode := ρ.checkNode_eq (.branch line condition body none)
      rw [expr] at hnode ⊢
      rw [Expr.check, Expr.check, hnode, check_expr condition, checkAll_exprs body]
      exact Except.bimap_bind _ fun _ => Except.bimap_bind _ fun _ => Except.bimap_bind _ fun _ => rfl
  | .branch line condition body (some otherwise) => by
      have hnode := ρ.checkNode_eq (.branch line condition body (some otherwise))
      rw [expr] at hnode ⊢
      rw [Expr.check, Expr.check, hnode, check_expr condition, checkAll_exprs body]
      exact Except.bimap_bind _ fun _ => Except.bimap_bind _ fun _ => Except.bimap_bind _ fun _ =>
        checkAll_exprs otherwise
  | .loop line name range body => by
      have hnode := ρ.checkNode_eq (.loop line name range body)
      rw [expr] at hnode ⊢
      rw [Expr.check, Expr.check, hnode, check_expr range]
      exact Except.bimap_bind _ fun _ => Except.bimap_bind _ fun _ => checkAll_exprs body

theorem checkAll_exprs : (es : List Expr) →
    Expr.checkAll (ρ.exprs es) = (Expr.checkAll es).bimap (ρ.fault id) id
  | [] => rfl
  | e :: es => by
      rw [exprs, Expr.checkAll, Expr.checkAll, check_expr e]
      exact Except.bimap_bind _ fun _ => checkAll_exprs es

end

/-! ## operands -/

/-- The renaming of a fault of a run. -/
abbrev evalFault : Fault EvalCause → Fault EvalCause := ρ.fault ρ.evalCause

theorem localValue?_map (locals : List Binding) (name : String) :
    localValue? (locals.map ρ.binding) (ρ.name name) = localValue? locals name := by
  induction locals with
  | nil => rfl
  | cons b locals ih =>
      have hname : (ρ.binding b).name = ρ.name name ↔ b.name = name := ρ.name_injective.eq_iff
      rw [List.map_cons, localValue?_cons, localValue?_cons, ih]
      by_cases hb : b.name = name
      · rw [if_pos hb, if_pos (hname.mpr hb)]
        rfl
      · rw [if_neg hb, if_neg (mt hname.mp hb)]

theorem binding?_record (record : Record) :
    (ρ.record record).binding? = record.binding?.map ρ.binding := by
  cases record <;> rfl

theorem value?_history (history : History) (name : String) :
    History.value? (history.map ρ.record) (ρ.name name) = history.value? name := by
  have hbindings : (history.map ρ.record).reverse.filterMap Record.binding? =
      (history.reverse.filterMap Record.binding?).map ρ.binding := by
    rw [← List.map_reverse, List.filterMap_map, List.map_filterMap]
    exact congrArg (List.filterMap · _) (funext ρ.binding?_record)
  rw [History.value?, hbindings, ρ.localValue?_map, History.value?]

theorem lookup_eq (scope : Scope) (line : Nat) (name : String) :
    Scope.lookup ⟨scope.history.map ρ.record, scope.locals.map ρ.binding⟩ (ρ.line line)
        (ρ.name name) =
      (scope.lookup line name).bimap ρ.evalFault id := by
  have hvalue : Scope.value? ⟨scope.history.map ρ.record, scope.locals.map ρ.binding⟩
      (ρ.name name) = scope.value? name := by
    rw [Scope.value?, ρ.localValue?_map, ρ.value?_history, Scope.value?]
  unfold Scope.lookup
  rw [hvalue]
  cases scope.value? name <;> rfl

/-- A failure that names no variable is renamed by its line alone. -/
theorem atLine_eq {α : Type} {x : Except EvalCause α} (hx : x.FailsWith EvalCause.Nameless)
    (line : Nat) : atLine (ρ.line line) x = (atLine line x).bimap ρ.evalFault id := by
  cases x with
  | ok a => rfl
  | error cause =>
      have hcause : ρ.evalCause cause = cause := by
        cases cause with
        | unknownVariable name => exact absurd rfl (hx _ rfl name)
        | _ => rfl
      show (.error ⟨cause, ρ.line line⟩ : Except (Fault EvalCause) α) =
        .error ⟨ρ.evalCause cause, ρ.line line⟩
      rw [hcause]

/-- The value of a renamed operand in a renamed scope. -/
theorem eval_eq (scope : Scope) (e : Expr) :
    (ρ.expr e).eval ⟨scope.history.map ρ.record, scope.locals.map ρ.binding⟩ =
      (e.eval scope).bimap ρ.evalFault id := by
  induction e using Expr.eval.induct with
  | case1 => rfl
  | case2 => exact ρ.lookup_eq ..
  | case3 line operand ih =>
      rw [expr, Expr.eval, Expr.eval, ih]
      exact Except.bimap_bind _ fun value => ρ.atLine_eq value.negate_nameless line
  | case4 line op left right ihleft ihright =>
      rw [expr, Expr.eval, Expr.eval, ihleft, ihright]
      exact Except.bimap_bind _ fun l => Except.bimap_bind _ fun r =>
        ρ.atLine_eq (op.apply_nameless l r) line
  | case5 | case6 | case8 => rfl
  | case7 line condition body otherwise => cases otherwise <;> rfl

/-! ## statements -/

/-- A renamed frame. -/
def frame {σ : Type} (frame : Frame σ) : Frame σ := ⟨frame.locals.map ρ.binding, frame.out⟩

/-- Running goes the same way on renamed bindings, with a renamed result. -/
abbrev Runs {σ α : Type} (g : α → α) : Eval σ α → Eval σ α → Prop :=
  EStateM.Carries ρ.evalFault ρ.frame g

theorem operand_eq {σ : Type} (history : History) (e : Expr) :
    ρ.Runs id (Eval.operand history e : Eval σ Value)
      (Eval.operand (history.map ρ.record) (ρ.expr e)) := by
  intro frame
  exact EStateM.Carries.ofExcept (ρ.eval_eq ⟨history, frame.locals⟩ e) frame

theorem bindLocal_eq {σ : Type} (b : Binding) :
    ρ.Runs id (Eval.bindLocal b : Eval σ Unit) (Eval.bindLocal (ρ.binding b)) :=
  fun _ => rfl

theorem keep_eq {σ : Type} (record : Record) :
    ρ.Runs id (Eval.keep record : Eval σ Unit) (Eval.keep (ρ.record record)) := by
  unfold Eval.keep
  rw [ρ.binding?_record]
  cases record.binding? with
  | none => exact .pure ()
  | some b => exact ρ.bindLocal_eq b

/-- Each loop gives the same name to its element. -/
theorem bindElement_eq {σ : Type} (name : Option String) (item : Number) :
    ρ.Runs id (Eval.bindElement name item : Eval σ Unit)
      (Eval.bindElement (name.map ρ.name) item) := by
  have hloop : ρ.binding ⟨loopName, .int item⟩ = ⟨loopName, .int item⟩ := by
    rw [binding, ρ.name_loopName]
  unfold Eval.bindElement
  refine .bind (hloop ▸ ρ.bindLocal_eq ⟨loopName, .int item⟩) fun _ => ?_
  cases name with
  | none => exact .pure ()
  | some name => exact ρ.bindLocal_eq ⟨name, .int item⟩

theorem enclosed_eq {σ α : Type} {g : α → α} {x y : Eval σ α} (h : ρ.Runs g x y) :
    ρ.Runs g (Eval.enclosed x) (Eval.enclosed y) := by
  intro frame
  unfold Eval.enclosed
  rw [h frame]
  cases x frame <;> rfl

section

variable {σ : Type} [Sink σ]

theorem writeLine_eq (line : Nat) (text : String) :
    ρ.Runs id (Eval.writeLine line text : Eval σ Unit) (Eval.writeLine (ρ.line line) text) := by
  rintro ⟨locals, out⟩
  simp only [Eval.writeLine, frame]
  cases Sink.write (text ++ "\n") out <;> rfl

mutual

/-- A renamed statement against renamed records. -/
theorem run_expr (history : History) : (e : Expr) →
    ρ.Runs ρ.record (Eval.statement history e : Eval σ Record)
      (Eval.statement (history.map ρ.record) (ρ.expr e))
  | .assign line name value => by
      rw [expr, Eval.statement, Eval.statement]
      exact .bind (ρ.operand_eq history value) fun _ => .pure _
  | .print line value => by
      rw [expr, Eval.statement, Eval.statement]
      exact .bind (ρ.operand_eq history value) fun v =>
        .bind (ρ.writeLine_eq line v.text) fun _ => .pure _
  | .branch line condition body none => by
      rw [expr, Eval.statement, Eval.statement]
      refine .bind (ρ.operand_eq history condition) fun v =>
        .bind (.ofExcept (ρ.atLine_eq v.toBool_nameless line)) fun taken => ?_
      cases taken with
      | true => exact .bind (ρ.enclosed_eq (run_exprs history body)) fun _ => .pure _
      | false => exact .pure _
  | .branch line condition body (some otherwise) => by
      rw [expr, Eval.statement, Eval.statement]
      refine .bind (ρ.operand_eq history condition) fun v =>
        .bind (.ofExcept (ρ.atLine_eq v.toBool_nameless line)) fun taken => ?_
      cases taken with
      | true => exact .bind (ρ.enclosed_eq (run_exprs history body)) fun _ => .pure _
      | false => exact .bind (ρ.enclosed_eq (run_exprs history otherwise)) fun _ => .pure _
  | .loop line name range body => by
      rw [expr, Eval.statement, Eval.statement]
      refine .bind (ρ.operand_eq history range) fun v =>
        .bind (.ofExcept (ρ.atLine_eq v.toArray_nameless line)) fun items => ?_
      refine .bind (.forM (fun item => ?_) items) fun _ => .pure _
      exact ρ.enclosed_eq (.bind (ρ.bindElement_eq name item) fun _ =>
        ρ.enclosed_eq (run_exprs history body))
  | .literal line value => by
      rw [expr, Eval.statement, Eval.statement]
      exact .bind (ρ.operand_eq history (.literal line value)) fun _ => .pure _
  | .var line name => by
      rw [expr, Eval.statement, Eval.statement]
      exact .bind (ρ.operand_eq history (.var line name)) fun _ => .pure _
  | .not line e => by
      rw [expr, Eval.statement, Eval.statement]
      exact .bind (ρ.operand_eq history (.not line e)) fun _ => .pure _
  | .binary line op left right => by
      rw [expr, Eval.statement, Eval.statement]
      exact .bind (ρ.operand_eq history (.binary line op left right)) fun _ => .pure _

theorem run_exprs (history : History) : (es : List Expr) →
    ρ.Runs id (Eval.statements history es : Eval σ Unit)
      (Eval.statements (history.map ρ.record) (ρ.exprs es))
  | [] => by
      rw [exprs, Eval.statements, Eval.statements]
      exact .pure _
  | e :: es => by
      rw [exprs, Eval.statements, Eval.statements]
      exact .bind (run_expr history e) fun record =>
        .bind (ρ.keep_eq record) fun _ => run_exprs history es

end

/-! ## programs -/

/-- A renamed transcript. -/
def transcript (t : Transcript σ) : Transcript σ := ⟨t.history.map ρ.record, t.out⟩

theorem step_eq (e : Expr) :
    EStateM.Carries ρ.evalFault ρ.transcript id (Transcript.step e : EStateM _ (Transcript σ) Unit)
      (Transcript.step (ρ.expr e)) := by
  rintro ⟨history, out⟩
  have hrun : Eval.statement (history.map ρ.record) (ρ.expr e) ⟨[], out⟩ =
      (Eval.statement history e ⟨[], out⟩).trimap ρ.evalFault ρ.frame ρ.record :=
    ρ.run_expr history e ⟨[], out⟩
  unfold Transcript.step transcript
  simp only [hrun]
  cases Eval.statement history e ⟨[], out⟩ with
  | ok record after =>
      simp only [EStateM.Result.trimap, List.map_append, List.map_singleton]
      rfl
  | error fault after => rfl

/-- **Running a renamed program** prints the same and leaves the renamed records, or
fails with the renamed fault. -/
theorem evaluate_eq (p : Program) :
    EStateM.Carries ρ.evalFault ρ.transcript id
      (Transcript.evaluate p : EStateM _ (Transcript σ) Unit) (Transcript.evaluate (ρ.exprs p)) := by
  induction p with
  | nil => exact .pure _
  | cons e p ih => exact .bind (ρ.step_eq e) fun _ => ih

end

/-! ## whole texts -/

theorem validate_eq (options : Options) (p : Program) :
    options.validate (ρ.exprs p) = (options.validate p).bimap ρ.error id := by
  have hcheck : Program.check (ρ.exprs p) = (Program.check p).bimap (ρ.fault id) id :=
    ρ.checkAll_exprs p
  unfold Options.validate
  rw [hcheck]
  split
  · cases Program.check p <;> rfl
  · rfl

/-- A text whose lines of tokens are those of another text, renamed. -/
theorem compile_eq {source source' : String}
    (h : tokenize source' = (tokenize source).bimap (ρ.fault id) (List.map ρ.sourceLine))
    (options : Options) : compile options source' = (compile options source).bimap ρ.error ρ.exprs := by
  have hlex : (tokenize source').mapError Error.lex =
      ((tokenize source).mapError Error.lex).bimap ρ.error (List.map ρ.sourceLine) := by
    rw [h]
    cases tokenize source <;> rfl
  have hparse : ∀ lines : List SourceLine, (parse (lines.map ρ.sourceLine)).mapError Error.parse =
      ((parse lines).mapError Error.parse).bimap ρ.error ρ.exprs := by
    intro lines
    rw [ρ.parse_eq]
    cases parse lines <;> rfl
  unfold compile
  rw [hlex]
  refine Except.bimap_bind _ fun lines => ?_
  rw [hparse]
  refine Except.bimap_bind _ fun p => ?_
  rw [ρ.validate_eq]
  exact Except.bimap_bind _ fun _ => rfl

/-- **Running a text** whose lines of tokens are those of another text, renamed. -/
theorem runSource_eq {σ : Type} [Sink σ] {source source' : String}
    (h : tokenize source' = (tokenize source).bimap (ρ.fault id) (List.map ρ.sourceLine))
    (options : Options) (out : σ) :
    runSource options source' out =
      (runSource options source out).trimap ρ.error id (List.map ρ.record) := by
  unfold runSource
  rw [ρ.compile_eq h]
  cases compile options source with
  | error error => rfl
  | ok p =>
      have hrun : Transcript.evaluate (ρ.exprs p) ⟨[], out⟩ =
          (Transcript.evaluate p ⟨[], out⟩).trimap ρ.evalFault ρ.transcript id :=
        ρ.evaluate_eq p ⟨[], out⟩
      simp only [Except.bimap_ok, hrun]
      cases Transcript.evaluate p ⟨[], out⟩ <;> rfl

/-! ## names alone -/

/-- A check without new numbers has the same verdict. -/
theorem check_ofName (name : String → String) (hname : Function.Injective name)
    (hloop : name loopName = loopName) (p : Program) :
    Program.check ((ofName name hname hloop).exprs p) = Program.check p := by
  have hcheck : Program.check ((ofName name hname hloop).exprs p) =
      (Program.check p).bimap ((ofName name hname hloop).fault id) id :=
    checkAll_exprs _ p
  rw [hcheck]
  cases Program.check p with
  | ok => rfl
  | error fault => rfl

end Renaming

/-- **Names are interchangeable**: let variables be renamed throughout, different ones
differently, and the element of every loop not at all.  The renamed lines are read as the
renamed program, or the fault is the same with the name in it renamed.  The check of any
renamed program has the same verdict.  A run of it prints the same, and its records, and
its fault if it fails, are the same with the names in them renamed. -/
theorem names_interchangeable (name : String → String) (hname : Function.Injective name)
    (hloop : name loopName = loopName) (lines : List SourceLine) (p : Program) :
    let ρ := Renaming.ofName name hname hloop
    parse (lines.map ρ.sourceLine) = (parse lines).bimap ρ.parseFault ρ.exprs ∧
    Program.check (ρ.exprs p) = Program.check p ∧
    ∀ {σ : Type} [Sink σ] (out : σ), Transcript.evaluate (ρ.exprs p) ⟨[], out⟩ =
      (Transcript.evaluate p ⟨[], out⟩).trimap ρ.evalFault ρ.transcript id := by
  intro ρ
  refine ⟨ρ.parse_eq lines, Renaming.check_ofName name hname hloop p, ?_⟩
  intro σ _ out
  exact ρ.evaluate_eq p ⟨[], out⟩

/-- A loop whose element hides nothing, and after it a name that only the loop gives. -/
def multiples : List SourceLine :=
  [⟨1, [.word "x", .operator .assign, .literal (.int 2)]⟩,
    ⟨2, [.keyword .forEach, .word "y", .operator (.binary .isIn), .literal (.int 1),
      .operator (.binary .range), .literal (.int 3)]⟩,
    ⟨3, [.keyword .print, .word "x", .operator (.binary .mul), .word "y"]⟩,
    ⟨4, [.keyword .endBlock]⟩,
    ⟨5, [.keyword .print, .word "y"]⟩]

/-- With the two names exchanged the loop prints the same, and the run fails for the
other name. -/
theorem names_interchangeable_swapped :
    ∃ p, parse
      [⟨1, [.word "y", .operator .assign, .literal (.int 2)]⟩,
        ⟨2, [.keyword .forEach, .word "x", .operator (.binary .isIn), .literal (.int 1),
          .operator (.binary .range), .literal (.int 3)]⟩,
        ⟨3, [.keyword .print, .word "y", .operator (.binary .mul), .word "x"]⟩,
        ⟨4, [.keyword .endBlock]⟩,
        ⟨5, [.keyword .print, .word "x"]⟩] = .ok p ∧
      Program.check p = .ok () ∧
      Transcript.evaluate p ⟨[], ({} : Buffer)⟩ = .error ⟨.unknownVariable "x", 5⟩
        ⟨[.assign 1 "y" (.int 2), .loop 2 2], ⟨"2\n4\n".toUTF8, none⟩⟩ := by
  have hread : ∃ p, parse multiples = .ok p ∧ Program.check p = .ok () ∧
      Transcript.evaluate p ⟨[], ({} : Buffer)⟩ = .error ⟨.unknownVariable "y", 5⟩
        ⟨[.assign 1 "x" (.int 2), .loop 2 2], ⟨"2\n4\n".toUTF8, none⟩⟩ :=
    ⟨_, by cbv, by cbv, by cbv⟩
  obtain ⟨p, hparse, hcheck, hrun⟩ := hread
  obtain ⟨hparse', hcheck', hrun'⟩ := names_interchangeable (Equiv.swap "x" "y")
    (Equiv.injective _) (by decide) multiples p
  rw [hparse] at hparse'
  rw [hcheck] at hcheck'
  have hrun'' := hrun' ({} : Buffer)
  rw [hrun] at hrun''
  exact ⟨_, hparse', hcheck', hrun''⟩

end LineScript
