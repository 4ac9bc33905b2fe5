import LineScript.Proofs.Eval.Range
import LineScript.Proofs.Eval.Refusal
import Mathlib

/-!
# LineScript.Proofs.Eval.Iteration

The turns of a loop are independent.  They share one stack of bindings and one sink, but
each finds the bindings as the loop found them, and none looks at the sink.  So a loop does
what its body does at each element by itself, from a fresh log, one element after the other
and up to the first that fails.  Nothing else ties the turns together, and a loop over a
range is a loop over its first part and then one over the rest.

* `Eval.answer_turn_eq_alone` — one turn;
* `Eval.answer_forM_turn`, `Eval.statement_loop_cases` — all turns;
* `Eval.statement_loop_append` — loops over lists that follow each other;
* `loop_independent` — what this says about loops.
-/

namespace LineScript

/-- A buffer without a limit takes every text. -/
theorem Buffer.unlimited (bytes : ByteArray) : Sink.Unlimited (⟨bytes, none⟩ : Buffer) := by
  intro texts text
  induction texts generalizing bytes with
  | nil => exact ⟨_, write_unlimited text bytes⟩
  | cons first texts ih => exact ih (bytes ++ first.toUTF8)

/-! ## runs that follow each other -/

/-- How often the body of a loop was run. -/
def Record.iterations : Record → Nat
  | loop _ iterations => iterations
  | _ => 0

/-- What runs leave together that follow each other, one for each element and each from a log
of its own: they go on as long as they end well, and what they print is put together. -/
def Answer.joined {α : Type} (run : α → Answer Log Unit) : List α → Answer Log Unit
  | [] => .ok () {}
  | x :: xs =>
    match run x with
    | .ok () log => (joined run xs).mapState fun more => ⟨log.texts ++ more.texts⟩
    | .error fault log => .error fault log

namespace Answer

variable {α : Type} {run : α → Answer Log Unit} {xs before rest : List α} {x : α}

theorem joined_cons_ok {log : Log} (h : run x = .ok () log) :
    joined run (x :: xs) = (joined run xs).mapState fun more => ⟨log.texts ++ more.texts⟩ := by
  rw [joined, h]

theorem joined_cons_error {fault : Fault EvalCause} {log : Log} (h : run x = .error fault log) :
    joined run (x :: xs) = .error fault log := by
  rw [joined, h]

theorem joined_of_ok (h : ∀ x ∈ xs, ∃ log, run x = .ok () log) :
    joined run xs = .ok () ⟨xs.flatMap fun x => (run x).state.texts⟩ := by
  induction xs with
  | nil => rfl
  | cons x xs ih =>
      obtain ⟨⟨log, hx⟩, hrest⟩ := List.forall_mem_cons.mp h
      rw [joined_cons_ok hx, ih hrest, List.flatMap_cons, hx]
      rfl

theorem joined_of_error {fault : Fault EvalCause} {log : Log}
    (hbefore : ∀ x ∈ before, ∃ log, run x = .ok () log) (hx : run x = .error fault log) :
    joined run (before ++ x :: rest) =
      .error fault ⟨(before ++ [x]).flatMap fun x => (run x).state.texts⟩ := by
  induction before with
  | nil => simp [joined_cons_error hx, hx, EStateM.Result.state]
  | cons y before ih =>
      obtain ⟨⟨first, hy⟩, hrest⟩ := List.forall_mem_cons.mp hbefore
      rw [List.cons_append, joined_cons_ok hy, ih hrest, List.cons_append, List.flatMap_cons, hy]
      rfl

/-- Either all runs end well, or there is a first that fails. -/
theorem all_ok_or (run : α → Answer Log Unit) (xs : List α) :
    (∀ x ∈ xs, ∃ log, run x = .ok () log) ∨
      ∃ before x rest fault log, xs = before ++ x :: rest ∧
        (∀ y ∈ before, ∃ log, run y = .ok () log) ∧ run x = .error fault log := by
  induction xs with
  | nil => exact .inl (by simp)
  | cons x xs ih =>
      cases hx : run x with
      | error fault log => exact .inr ⟨[], x, xs, fault, log, rfl, by simp, hx⟩
      | ok u log =>
          rcases ih with hall | ⟨before, y, rest, fault, last, rfl, hbefore, hy⟩
          · exact .inl (List.forall_mem_cons.mpr ⟨⟨log, hx⟩, hall⟩)
          · exact .inr ⟨x :: before, y, rest, fault, last, rfl,
              List.forall_mem_cons.mpr ⟨⟨log, hx⟩, hbefore⟩, hy⟩

end Answer

/-! ## turns -/

namespace Eval

variable {σ : Type} [Sink σ] {history : History} {locals : List Binding} {name : Option String}
  {body : List Expr}

/-- What the body of a loop leaves when it runs by itself at one element: it starts from the
bindings around the loop with the element bound, and from an empty log. -/
def alone (history : History) (locals : List Binding) (name : Option String) (body : List Expr)
    (item : Number) : Answer Log Unit :=
  answer (block history body) ⟨elementBindings name item ++ locals, {}⟩

/-- **A turn** does to a sink without a limit what the body does by itself. -/
theorem answer_turn_eq_alone {out : σ} (hout : Sink.Unlimited out) (item : Number) :
    answer (turn history name body item) ⟨locals, out⟩ =
      (alone history locals name body item).mapState fun log => Sink.takeAll out log.texts := by
  have hbody : statements history body ⟨elementBindings name item ++ locals, out⟩ = _ :=
    Simulates.statements hout.hom (.refl history) body ⟨elementBindings name item ++ locals, {}⟩
  rw [answer_turn, alone, block, answer_enclosed, answer, answer, hbody]
  cases statements history body ⟨elementBindings name item ++ locals, ({} : Log)⟩ <;> rfl

/-- **All turns** of a loop leave what the runs of its body leave together. -/
theorem answer_forM_turn {out : σ} (hout : Sink.Unlimited out) (items : List Number) :
    answer (items.forM (turn history name body)) ⟨locals, out⟩ =
      (Answer.joined (alone history locals name body) items).mapState
        fun log => Sink.takeAll out log.texts := by
  induction items generalizing out with
  | nil => rfl
  | cons item items ih =>
      have hturn : answer (turn history name body item) ⟨locals, out⟩ =
          (alone history locals name body item).mapState _ := answer_turn_eq_alone hout item
      show answer (do turn history name body item; items.forM (turn history name body)) _ = _
      cases halone : alone history locals name body item with
      | error fault log =>
          rw [halone] at hturn
          obtain ⟨_, hrun⟩ := exists_of_answer_eq_error hturn
          rw [answer_bind_of_error hrun, Answer.joined_cons_error halone]
          rfl
      | ok u log =>
          rw [halone] at hturn
          obtain ⟨_, hrun⟩ := exists_of_answer_eq_ok hturn
          obtain rfl := locals_of_enclosed hrun
          rw [answer_bind_of_ok hrun, ih (hout.takeAll log.texts), Answer.joined_cons_ok halone]
          cases Answer.joined (alone history _ name body) items <;>
            simp [EStateM.Result.mapState, Sink.takeAll_append]

/-- What a loop leaves on a sink without a limit: its body ends well at every element by
itself, or it fails at one after it has ended well at those before. -/
theorem statement_loop_cases (name : Option String) (body : List Expr) {range : Expr}
    {items : List Number} {out : σ} (line : Nat)
    (hrange : range.eval ⟨history, locals⟩ = .ok (.array items)) (hout : Sink.Unlimited out) :
    ((∀ item ∈ items, ∃ log, alone history locals name body item = .ok () log) ∧
      ∃ after, statement history (.loop line name range body) ⟨locals, out⟩ =
          .ok (.loop line items.length) after ∧
        after.out = Sink.takeAll out
          (items.flatMap fun item => (alone history locals name body item).state.texts)) ∨
    ∃ before item rest fault log after, items = before ++ item :: rest ∧
      (∀ x ∈ before, ∃ log, alone history locals name body x = .ok () log) ∧
      alone history locals name body item = .error fault log ∧
      statement history (.loop line name range body) ⟨locals, out⟩ = .error fault after ∧
      after.out = Sink.takeAll out
        ((before ++ [item]).flatMap fun x => (alone history locals name body x).state.texts) := by
  have hturns : answer (items.forM (turn history name body)) ⟨locals, out⟩ = _ :=
    answer_forM_turn hout items
  rw [statement_loop hrange]
  rcases Answer.all_ok_or (alone history locals name body) items with
    hall | ⟨before, item, rest, fault, log, rfl, hbefore, hitem⟩
  · rw [Answer.joined_of_ok hall] at hturns
    obtain ⟨_, hrun⟩ := exists_of_answer_eq_ok hturns
    exact .inl ⟨hall, _, by rw [hrun]; rfl, rfl⟩
  · rw [Answer.joined_of_error hbefore hitem] at hturns
    obtain ⟨_, hrun⟩ := exists_of_answer_eq_error hturns
    exact .inr ⟨before, item, rest, fault, log, _, rfl, hbefore, hitem, by rw [hrun]; rfl, rfl⟩

/-! ## loops that follow each other -/

/-- Loops over lists that follow each other are one loop over both. -/
theorem statement_loop_append {range first second : Expr} {xs ys : List Number}
    (line line₁ line₂ : Nat) (hrange : range.eval ⟨history, locals⟩ = .ok (.array (xs ++ ys)))
    (hfirst : first.eval ⟨history, locals⟩ = .ok (.array xs))
    (hsecond : second.eval ⟨history, locals⟩ = .ok (.array ys)) (out : σ) :
    statement history (.loop line name range body) ⟨locals, out⟩ =
      (do
        let r₁ ← statement history (.loop line₁ name first body)
        let r₂ ← statement history (.loop line₂ name second body)
        return Record.loop line (r₁.iterations + r₂.iterations)) ⟨locals, out⟩ := by
  have happend : (xs ++ ys).forM (turn history name body : Number → Eval σ Unit) =
      (do xs.forM (turn history name body); ys.forM (turn history name body)) := List.forM_append
  rw [statement_loop hrange, happend]
  cases hrun : xs.forM (turn history name body) ⟨locals, out⟩ with
  | error fault after =>
      have hloop : statement history (.loop line₁ name first body) ⟨locals, out⟩ =
          .error fault after := by
        rw [statement_loop hfirst, hrun]
        rfl
      rw [EStateM.bind_of_error hrun, EStateM.bind_of_error hloop]
      rfl
  | ok u between =>
      have hloop : statement history (.loop line₁ name first body) ⟨locals, out⟩ =
          .ok (.loop line₁ xs.length) between := by
        rw [statement_loop hfirst, hrun]
        rfl
      -- The second loop starts from the bindings that the first one started from.
      obtain rfl := locals_of_forM_turn hrun
      rw [EStateM.bind_of_ok hrun, EStateM.bind_of_ok hloop, EStateM.bind_pure_eq_map,
        statement_loop hsecond, List.length_append]
      cases ys.forM (turn history name body) between <;> rfl

end Eval

/-- The operand has a value that stands for the number. -/
def Expr.StandsFor (scope : Scope) (e : Expr) (n : Number) : Prop :=
  ∃ value, e.eval scope = .ok value ∧ value.number = .ok n

theorem Expr.eval_rangeOp {scope : Scope} {start stop : Expr} {a b : Number} {inclusive : Bool}
    {items : List Number} (line : Nat) (hstart : start.StandsFor scope a)
    (hstop : stop.StandsFor scope b) (h : BinaryOp.rangeItems a b inclusive = .ok items) :
    (binary line (.rangeOp inclusive) start stop).eval scope = .ok (.array items) := by
  obtain ⟨l, hl, hleft⟩ := hstart
  obtain ⟨r, hr, hright⟩ := hstop
  rw [eval, Except.bind_of_ok hl, Except.bind_of_ok hr,
    BinaryOp.apply_rangeOp inclusive hleft hright, h]
  rfl

/-! ## loops -/

section

variable {σ : Type} [Sink σ]

open Eval

/-- **The turns of a loop are independent**: on a sink without a limit, a loop ends well
exactly if its body does at every element by itself.  It prints what the body prints there,
element by element, up to and with the first at which it fails, and it fails as the body does
there.  So a loop over a range can be cut in two at a number inside the range, whatever the
sink: it does what the loop over the first part does and, if that ends well, the loop over
the rest. -/
theorem loop_independent (history : History) (locals : List Binding) (name : Option String)
    (body : List Expr) :
    (∀ (line : Nat) (range : Expr) (items : List Number) (out : σ),
      range.eval ⟨history, locals⟩ = .ok (.array items) → Sink.Unlimited out →
      let run := statement history (.loop line name range body) ⟨locals, out⟩
      let alone := alone history locals name body
      ((∃ record after, run = .ok record after) ↔ ∀ item ∈ items, ∃ log, alone item = .ok () log) ∧
      (∀ record after, run = .ok record after → record = .loop line items.length ∧
        after.out = Sink.takeAll out (items.flatMap fun item => (alone item).state.texts)) ∧
      ∀ fault after, run = .error fault after → ∃ before item rest log,
        items = before ++ item :: rest ∧ (∀ x ∈ before, ∃ log, alone x = .ok () log) ∧
        alone item = .error fault log ∧
        after.out =
          Sink.takeAll out ((before ++ [item]).flatMap fun item => (alone item).state.texts)) ∧
    ∀ (start middle stop : Expr) (a b c : Number) (inclusive : Bool) (line line₁ line₂ : Nat)
      (out : σ), start.StandsFor ⟨history, locals⟩ a → middle.StandsFor ⟨history, locals⟩ b →
      stop.StandsFor ⟨history, locals⟩ c → (a < b ∧ b < c ∨ c < b ∧ b < a) →
      (c.toInt - a.toInt).natAbs < 2 ^ 24 →
      statement history
          (.loop line name (.binary line (.rangeOp inclusive) start stop) body) ⟨locals, out⟩ =
        (do
          let first ← statement history
            (.loop line₁ name (.binary line₁ .range start middle) body)
          let second ← statement history
            (.loop line₂ name (.binary line₂ (.rangeOp inclusive) middle stop) body)
          return Record.loop line (first.iterations + second.iterations)) ⟨locals, out⟩ := by
  constructor
  · intro line range items out hrange hout run alone
    rcases statement_loop_cases name body line hrange hout with ⟨hall, final, hrun, hfinal⟩ |
      ⟨before, item, rest, fault, log, final, rfl, hbefore, hitem, hrun, hfinal⟩
    · refine ⟨⟨fun _ => hall, fun _ => ⟨_, _, hrun⟩⟩, ?_, ?_⟩
      · intro record after h
        obtain ⟨rfl, rfl⟩ := EStateM.Result.ok.inj (hrun.symm.trans h)
        exact ⟨rfl, hfinal⟩
      · intro fault after h
        cases hrun.symm.trans h
    · refine ⟨⟨?_, ?_⟩, ?_, ?_⟩
      · rintro ⟨record, after, h⟩
        cases hrun.symm.trans h
      · intro hall
        obtain ⟨_, hok⟩ := hall item (by simp)
        cases hitem.symm.trans hok
      · intro record after h
        cases hrun.symm.trans h
      · intro fault' after h
        obtain ⟨rfl, rfl⟩ := EStateM.Result.error.inj (hrun.symm.trans h)
        exact ⟨before, item, rest, log, rfl, hbefore, hitem, hfinal⟩
  · intro start middle stop a b c inclusive line line₁ line₂ out ha hb hc hmiddle hsmall
    obtain ⟨xs, ys, hxs, hys, hall⟩ := BinaryOp.rangeItems_append inclusive hmiddle hsmall
    exact statement_loop_append line line₁ line₂ (Expr.eval_rangeOp line ha hc hall)
      (Expr.eval_rangeOp line₁ ha hb hxs) (Expr.eval_rangeOp line₂ hb hc hys) out

end

/-- The body of a loop that divides by its element. -/
def quotients : List Expr := [.print 2 (.binary 2 .div (.literal 2 (.int 6)) (.var 2 "x"))]

/-- A loop from 3 down to 0 divides by zero in its last turn, after it has printed in the
others.  It is the loop down to 2 and then the loop from 1 on. -/
theorem loop_independent_quotients :
    let number : Number → Expr := fun n => .literal 1 (.int n)
    let divide (start stop : Number) : Expr :=
      .loop 1 (some "x") (.binary 1 .range (number start) (number stop)) quotients
    (∃ before item rest log, [3, 2, 1, 0] = before ++ item :: rest ∧
      Eval.alone [] [] (some "x") quotients item = .error ⟨.divisionByZero, 2⟩ log ∧
      (⟨"2\n3\n6\n".toUTF8, none⟩ : Buffer) = Sink.takeAll ({} : Buffer)
        ((before ++ [item]).flatMap fun x =>
          (Eval.alone [] [] (some "x") quotients x).state.texts)) ∧
    Eval.statement [] (divide 3 (-1)) ⟨[], ({} : Buffer)⟩ =
      (do
        let first ← Eval.statement [] (divide 3 1)
        let second ← Eval.statement [] (divide 1 (-1))
        return Record.loop 1 (first.iterations + second.iterations)) ⟨[], ({} : Buffer)⟩ := by
  intro number divide
  have hrun : Eval.statement [] (divide 3 (-1)) ⟨[], ({} : Buffer)⟩ = .error ⟨.divisionByZero, 2⟩
      ⟨[⟨"x", .int 0⟩, ⟨loopName, .int 0⟩], ⟨"2\n3\n6\n".toUTF8, none⟩⟩ := by
    simp only [divide, number]
    cbv
  obtain ⟨hturns, hcut⟩ := loop_independent (σ := Buffer) [] [] (some "x") quotients
  have hrange : (Expr.binary 1 .range (number 3) (number (-1))).eval ⟨[], []⟩ =
      .ok (.array [3, 2, 1, 0]) := by
    simp only [number]
    cbv
  obtain ⟨-, -, hfails⟩ := hturns 1 _ _ {} hrange (Buffer.unlimited .empty)
  obtain ⟨before, item, rest, log, hitems, -, hitem, hout⟩ := hfails _ _ hrun
  refine ⟨⟨before, item, rest, log, hitems, hitem, hout⟩, ?_⟩
  exact hcut (number 3) (number 1) (number (-1)) 3 1 (-1) false 1 1 1 {} ⟨_, rfl, rfl⟩
    ⟨_, rfl, rfl⟩ ⟨_, rfl, rfl⟩ (.inr (by decide)) (by decide)

end LineScript
