import LineScript.Eval.Transcript
import LineScript.Proofs.Stateful

/-!
# LineScript.Proofs.Eval.Simulation

What running a statement depends on.  It reads a history only for the values of
names, and it never looks at its sink, so two runs that differ in nothing else
do the same.  A `Log` keeps the printed texts in order: what a statement does to
a sink that refuses nothing is to write the log it leaves.

* `Simulates.statement` — running commutes with every map of sinks that commutes
  with writing, against any two histories that agree;
* `Sink.Unlimited.hom` — writing a log to a sink that takes every text is such a map.
-/

namespace LineScript

/-! ## sinks -/

/-- The texts that were printed, in order. -/
structure Log where
  texts : List String := []
  deriving DecidableEq, Repr

instance : Sink Log where
  write text log := .ok () ⟨log.texts ++ [text]⟩

namespace Sink

variable {σ τ : Type} [Sink σ] [Sink τ]

/-- The sink after it was given a text. -/
def take (out : σ) (text : String) : σ :=
  match write text out with
  | .ok () after => after
  | .error _ after => after

/-- The sink after it was given texts, one after the other. -/
def takeAll (out : σ) (texts : List String) : σ := texts.foldl take out

@[simp] theorem takeAll_nil (out : σ) : takeAll out [] = out := rfl

theorem takeAll_append (out : σ) (xs ys : List String) :
    takeAll out (xs ++ ys) = takeAll (takeAll out xs) ys :=
  List.foldl_append

theorem takeAll_log (log : Log) (texts : List String) :
    takeAll log texts = ⟨log.texts ++ texts⟩ := by
  induction texts generalizing log with
  | nil => simp
  | cons text texts ih =>
      show takeAll (take log text) texts = _
      rw [ih]
      simp [take, write]

/-- A map of sinks that commutes with writing. -/
def Hom (φ : τ → σ) : Prop :=
  ∀ (text : String) (out : τ), write text (φ out) = (write text out).mapState φ

/-- The sink takes every text from now on. -/
def Unlimited (out : σ) : Prop :=
  ∀ (texts : List String) (text : String), ∃ after, write text (takeAll out texts) = .ok () after

theorem Unlimited.takeAll {out : σ} (h : Unlimited out) (texts : List String) :
    Unlimited (Sink.takeAll out texts) := by
  intro more text
  rw [← takeAll_append]
  exact h (texts ++ more) text

/-- Writing to a log and then the log to a sink is writing to the sink, if that takes every
text. -/
theorem Unlimited.hom {out : σ} (h : Unlimited out) :
    Hom fun log : Log => Sink.takeAll out log.texts := by
  intro text log
  obtain ⟨after, hafter⟩ := h log.texts text
  show _ = EStateM.Result.ok () (Sink.takeAll out (log.texts ++ [text]))
  rw [hafter, takeAll_append]
  show _ = EStateM.Result.ok () (take (Sink.takeAll out log.texts) text)
  rw [take, hafter]

end Sink

theorem Log.unlimited (log : Log) : Sink.Unlimited log := fun _ _ => ⟨_, rfl⟩

/-! ## histories -/

/-- Two histories give every name the same value. -/
def History.Agree (h h' : History) : Prop := ∀ name, h.value? name = h'.value? name

namespace History.Agree

variable {h h' : History}

theorem refl (h : History) : h.Agree h := fun _ => rfl

theorem append (hh : h.Agree h') (record : Record) :
    History.Agree (h ++ [record]) (h' ++ [record]) := by
  intro name
  rw [value?_append_singleton, value?_append_singleton, hh name]

/-- A record that binds nothing may be left out. -/
theorem append_left (hh : h.Agree h') {record : Record} (hrecord : record.binding? = none) :
    History.Agree (h ++ [record]) h' := by
  intro name
  rw [value?_append_singleton, hrecord]
  exact hh name

/-- Operands have the same value against histories that agree. -/
theorem eval_eq (hh : h.Agree h') (locals : List Binding) (e : Expr) :
    e.eval ⟨h, locals⟩ = e.eval ⟨h', locals⟩ := by
  induction e using Expr.eval.induct with
  | case2 line name => simp only [Expr.eval, Scope.lookup, Scope.value?, hh name]
  | case3 line operand ih => simp only [Expr.eval, ih]
  | case4 line op left right ihl ihr => simp only [Expr.eval, ihl, ihr]
  | _ => simp only [Expr.eval]

end History.Agree

/-! ## running -/

section

variable {σ τ : Type}

/-- Change the sink of a frame. -/
def Frame.mapOut (φ : τ → σ) (frame : Frame τ) : Frame σ := ⟨frame.locals, φ frame.out⟩

/-- Run on the image of a frame, the second action does what the first does. -/
abbrev Simulates {α : Type} (φ : τ → σ) : Eval τ α → Eval σ α → Prop :=
  EStateM.Carries id (Frame.mapOut φ) id

namespace Simulates

variable {α : Type} {φ : τ → σ}

theorem ofExcept (x : Except (Fault EvalCause) α) :
    Simulates φ (MonadExcept.ofExcept x) (MonadExcept.ofExcept x) :=
  EStateM.Carries.ofExcept x.bimap_id.symm

theorem operand {h h' : History} (hh : h.Agree h') (e : Expr) :
    Simulates φ (Eval.operand h e) (Eval.operand h' e) := by
  intro frame
  show (MonadExcept.ofExcept (e.eval ⟨h', frame.locals⟩) : Eval σ Value) _ =
    ((MonadExcept.ofExcept (e.eval ⟨h, frame.locals⟩) : Eval τ Value) frame).trimap _ _ _
  rw [hh.eval_eq]
  exact ofExcept _ frame

theorem bindLocal (b : Binding) : Simulates φ (Eval.bindLocal b) (Eval.bindLocal b) :=
  fun _ => rfl

theorem keep (record : Record) : Simulates φ (Eval.keep record) (Eval.keep record) := by
  unfold Eval.keep
  cases record.binding? with
  | none => exact .pure ()
  | some b => exact bindLocal b

theorem bindElement (name : Option String) (item : Number) :
    Simulates φ (Eval.bindElement name item) (Eval.bindElement name item) := by
  refine .bind (bindLocal _) fun _ => ?_
  cases name with
  | none => exact .pure ()
  | some name => exact bindLocal _

theorem enclosed {x : Eval τ α} {y : Eval σ α} (h : Simulates φ x y) :
    Simulates φ (Eval.enclosed x) (Eval.enclosed y) := by
  intro frame
  unfold Eval.enclosed
  rw [h frame]
  cases x frame <;> rfl

variable [Sink σ] [Sink τ]

theorem writeLine (hφ : Sink.Hom φ) (line : Nat) (text : String) :
    Simulates φ (Eval.writeLine line text) (Eval.writeLine line text) := by
  rintro ⟨locals, out⟩
  unfold Eval.writeLine Frame.mapOut
  simp only [hφ (text ++ "\n") out]
  cases Sink.write (text ++ "\n") out <;> rfl

mutual

/-- **Simulation**: a statement does the same on the image of its sink, against
a history that agrees. -/
theorem statement (hφ : Sink.Hom φ) {h h' : History} (hh : h.Agree h') :
    ∀ e, Simulates φ (Eval.statement h e) (Eval.statement h' e)
  | .assign line name value => by
      unfold Eval.statement
      exact .bind (operand hh value) fun _ => .pure _
  | .print line value => by
      unfold Eval.statement
      exact .bind (operand hh value) fun _ => .bind (writeLine hφ line _) fun _ => .pure _
  | .branch line condition body otherwise => by
      unfold Eval.statement
      refine .bind (operand hh condition) fun value => .bind (ofExcept _) fun taken => ?_
      cases taken with
      | true => exact .bind (enclosed (statements hφ hh body)) fun _ => .pure _
      | false =>
          cases otherwise with
          | none => exact .bind (.pure _) fun _ => .pure _
          | some body => exact .bind (enclosed (statements hφ hh body)) fun _ => .pure _
  | .loop line name range body => by
      unfold Eval.statement
      refine .bind (operand hh range) fun value => .bind (ofExcept _) fun items => ?_
      refine .bind (.forM (fun item => enclosed (.bind (bindElement name item) fun _ => ?_)) items)
        fun _ => .pure _
      exact enclosed (statements hφ hh body)
  | .literal line value => by
      unfold Eval.statement
      exact .bind (operand hh _) fun _ => .pure _
  | .var line name => by
      unfold Eval.statement
      exact .bind (operand hh _) fun _ => .pure _
  | .not line e => by
      unfold Eval.statement
      exact .bind (operand hh _) fun _ => .pure _
  | .binary line op left right => by
      unfold Eval.statement
      exact .bind (operand hh _) fun _ => .pure _

theorem statements (hφ : Sink.Hom φ) {h h' : History} (hh : h.Agree h') :
    ∀ es, Simulates φ (Eval.statements h es) (Eval.statements h' es)
  | [] => by
      unfold Eval.statements
      exact .pure ()
  | e :: es => by
      unfold Eval.statements
      exact .bind (statement hφ hh e) fun record => .bind (keep record) fun _ => statements hφ hh es

end

end Simulates

end

end LineScript
