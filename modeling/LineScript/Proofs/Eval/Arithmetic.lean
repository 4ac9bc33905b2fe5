import LineScript.Eval.Scope
import LineScript.Proofs.Number
import LineScript.Proofs.Stateful
import Mathlib

/-!
# LineScript.Proofs.Eval.Arithmetic

Arithmetic is exact, or it says why not.  A tree of literals and the four operations of
arithmetic has a value over the integers, unless it divides by zero, and so has each of
its operations.  The operations of a tree are computed in the order in which they are
completed: those of the left operand, those of the right one, and then the operation
itself.  If all of them fit into numbers, the tree has its value over the integers, and
otherwise it fails at the first that does not.

* `BinaryOp.arithmetic_of_fits`, `BinaryOp.arithmetic_of_not_fits` — one operation;
* `Expr.eval_of_fits`, `Expr.eval_of_find?_operations` — a tree, as far as it fits;
* `Expr.eval_exact` — both in one.
-/

namespace LineScript

/-! ## one operation -/

namespace BinaryOp

/-- Whether the operator is one of arithmetic. -/
def isArithmetic : BinaryOp → Bool
  | add | sub | mul | div => true
  | _ => false

/-- The result of an operator of arithmetic over the integers: division goes towards
zero, and there is none by zero. -/
def integerValue? : BinaryOp → Int → Int → Option Int
  | add, a, b => some (a + b)
  | sub, a, b => some (a - b)
  | mul, a, b => some (a * b)
  | div, a, b => if b = 0 then none else some (a.tdiv b)
  | _, _, _ => none

variable {op : BinaryOp} {left right : Number} {z : Int}

theorem integerValue?_eq (op : BinaryOp) (a b : Int) :
    op.integerValue? a b = if op = div ∧ b = 0 then none else op.integerResult? a b := by
  cases op <;> simp [integerValue?, integerResult?]

theorem exists_integerResult? (hop : op.isArithmetic = true) (a b : Int) :
    ∃ z, op.integerResult? a b = some z := by
  cases op with
  | add | sub | mul | div => exact ⟨_, rfl⟩
  | _ => contradiction

theorem arithmetic_of_fits (h : op.integerValue? left.toInt right.toInt = some z)
    (hz : Number.Fits z) : ∃ n, op.arithmetic left right = .ok n ∧ n.toInt = z := by
  obtain ⟨n, -, rfl⟩ := Number.exists_of_fits hz
  simp only [integerValue?_eq, Number.toInt_eq_zero_iff] at h
  split at h
  · contradiction
  · next hdiv => exact ⟨n, arithmetic_eq_ok_iff.mpr ⟨hdiv, h⟩, rfl⟩

/-- Only division fails for a zero on the right: with the other operators a zero leaves
what is on the left, or zero. -/
theorem fits_of_zero (hop : op.isArithmetic = true) (hdiv : op ≠ div) {a : Int}
    (ha : Number.Fits a) (h : op.integerResult? a 0 = some z) : Number.Fits z := by
  cases op with
  | add => cases h; simpa using ha
  | sub => cases h; simpa using ha
  | mul => cases h; simp [Number.Fits]
  | _ => contradiction

theorem arithmetic_of_not_fits (hop : op.isArithmetic = true)
    (h : ¬∃ z, op.integerValue? left.toInt right.toInt = some z ∧ Number.Fits z) :
    op.arithmetic left right =
      .error (if right.toInt = 0 then .divisionByZero else .overflow) := by
  simp only [integerValue?_eq, Number.toInt_eq_zero_iff] at h
  by_cases hdiv : op = div ∧ right = 0
  · rw [arithmetic, if_pos hdiv, if_pos (Number.toInt_eq_zero_iff.mpr hdiv.2)]
  · rw [if_neg hdiv] at h
    obtain ⟨z, hz⟩ := exists_integerResult? hop left.toInt right.toInt
    have hfits : ¬Number.Fits z := fun hfits => h ⟨z, hz, hfits⟩
    have hright : right.toInt ≠ 0 := by
      intro hzero
      rw [hzero] at hz
      have hne : op ≠ div := fun hop => hdiv ⟨hop, Number.toInt_eq_zero_iff.mp hzero⟩
      exact hfits (fits_of_zero hop hne left.fits_toInt hz)
    simp only [arithmetic, if_neg hdiv, hz, Number.ofInt?_of_not_fits hfits, if_neg hright]

end BinaryOp

/-! ## trees -/

/-- The integer a scalar stands for: a character for its code point, a truth value for one
or zero. -/
def Scalar.integerValue : Scalar → Int
  | int n => n.toInt
  | char c => c.toNat
  | bool b => if b then 1 else 0

theorem Scalar.toInt_number (s : Scalar) : s.number.toInt = s.integerValue := by
  cases s with
  | int n => rfl
  | char c => exact toInt_number_char c
  | bool b => cases b <;> rfl

namespace Expr

/-- Whether a tree is made of literals and the operations of arithmetic only. -/
def isArithmetic : Expr → Bool
  | literal .. => true
  | binary _ op left right => op.isArithmetic && left.isArithmetic && right.isArithmetic
  | _ => false

/-- The value of a tree over the integers, if it does not divide by zero. -/
def integerValue? : Expr → Option Int
  | literal _ value => some value.integerValue
  | binary _ op left right => do op.integerValue? (← left.integerValue?) (← right.integerValue?)
  | _ => none

/-- The operations of a tree between two operands, in the order in which they are
completed. -/
def operations : Expr → List Expr
  | binary line op left right =>
    left.operations ++ right.operations ++ [binary line op left right]
  | _ => []

/-- Whether the value of a tree over the integers is a number. -/
def fits (e : Expr) : Bool := e.integerValue?.any fun z => Number.Fits z

variable {scope : Scope} {e : Expr}

theorem fits_iff : e.fits = true ↔ ∃ z, e.integerValue? = some z ∧ Number.Fits z := by
  simp [fits, Option.any_eq_true]

/-- The value of an operation of arithmetic, from the numbers of its operands. -/
theorem eval_binary_of_number {line : Nat} {op : BinaryOp} {left right : Expr} {l r : Value}
    {m n : Number} (hop : op.isArithmetic = true) (hl : left.eval scope = .ok l)
    (hr : right.eval scope = .ok r) (hm : l.number = .ok m) (hn : r.number = .ok n) :
    (binary line op left right).eval scope = (atLine line (op.arithmetic m n)).map Value.int := by
  rw [eval, Except.bind_of_ok hl, Except.bind_of_ok hr]
  have happly : op.apply l r = (op.arithmetic m n).map Value.int := by
    cases op with
    | add | sub | mul | div =>
        show (do return Value.int (← BinaryOp.arithmetic _ (← l.number) (← r.number))) = _
        rw [hm, hn]
        rfl
    | _ => contradiction
  rw [happly]
  cases op.arithmetic m n <;> rfl

/-- **A tree that fits** has its value over the integers. -/
theorem eval_of_fits (scope : Scope) (he : e.isArithmetic = true)
    (h : ∀ node ∈ e.operations, node.fits = true) :
    ∃ value n, e.eval scope = .ok value ∧ value.number = .ok n ∧ e.integerValue? = some n.toInt ∧
      (e.operations ≠ [] → value = .int n) := by
  induction e using Expr.eval.induct with
  | case1 line value =>
      exact ⟨.scalar value, value.number, rfl, rfl, by rw [integerValue?, value.toInt_number], by
        simp [operations]⟩
  | case4 line op left right ihl ihr =>
      simp only [isArithmetic, Bool.and_eq_true] at he
      simp only [operations, List.forall_mem_append, List.forall_mem_singleton] at h
      obtain ⟨l, m, hl, hm, hleft, -⟩ := ihl he.1.2 h.1.1
      obtain ⟨r, n, hr, hn, hright, -⟩ := ihr he.2 h.1.2
      obtain ⟨z, hz, hfits⟩ := fits_iff.mp h.2
      have hexact : op.integerValue? m.toInt n.toInt = some z := by
        simpa [integerValue?, hleft, hright] using hz
      obtain ⟨k, hk, rfl⟩ := BinaryOp.arithmetic_of_fits hexact hfits
      refine ⟨.int k, k, ?_, rfl, hz, fun _ => rfl⟩
      rw [eval_binary_of_number he.1.1 hl hr hm hn, hk]
      rfl
  | _ => contradiction

/-- **A tree that does not fit** fails at the first operation that does not. -/
theorem eval_of_find?_operations (scope : Scope) (he : e.isArithmetic = true) {line : Nat}
    {op : BinaryOp} {left right : Expr}
    (h : e.operations.find? (fun node => !node.fits) = some (.binary line op left right)) :
    e.eval scope =
      .error ⟨if right.integerValue? = some 0 then .divisionByZero else .overflow, line⟩ := by
  induction e using Expr.eval.induct with
  | case4 line' op' l r ihl ihr =>
      simp only [isArithmetic, Bool.and_eq_true] at he
      obtain ⟨⟨hop, hel⟩, her⟩ := he
      rw [operations, List.find?_append, List.find?_append] at h
      cases hl : l.operations.find? fun node => !node.fits with
      | some first =>
          rw [hl] at h
          cases h
          rw [eval, ihl hel hl]
          rfl
      | none =>
          have hfits : ∀ node ∈ l.operations, node.fits = true := by
            simpa [List.find?_eq_none] using hl
          obtain ⟨x, m, hx, hm, hleft, -⟩ := eval_of_fits scope hel hfits
          cases hr : r.operations.find? fun node => !node.fits with
          | some first =>
              rw [hl, hr] at h
              cases h
              rw [eval, Except.bind_of_ok hx, ihr her hr]
              rfl
          | none =>
              have hfits' : ∀ node ∈ r.operations, node.fits = true := by
                simpa [List.find?_eq_none] using hr
              obtain ⟨y, n, hy, hn, hright, -⟩ := eval_of_fits scope her hfits'
              -- Nothing below the node is at fault, so it is the node itself.
              have hself : (binary line' op' l r).fits = false ∧
                  binary line' op' l r = binary line op left right := by
                simpa [hl, hr] using h
              obtain ⟨hnode, heq⟩ := hself
              cases heq
              have hnone : ¬∃ z, op.integerValue? m.toInt n.toInt = some z ∧ Number.Fits z := by
                intro hz
                rw [← Bool.not_eq_true, fits_iff] at hnode
                exact hnode (by simpa [integerValue?, hleft, hright] using hz)
              rw [eval_binary_of_number hop hx hy hm hn,
                BinaryOp.arithmetic_of_not_fits hop hnone]
              simp only [hright, Option.some.injEq]
              rfl
  | _ => contradiction

theorem exists_binary_of_mem_operations {node : Expr} (h : node ∈ e.operations) :
    ∃ line op left right, node = binary line op left right := by
  induction e using operations.induct with
  | case1 line op left right ihl ihr =>
      rw [operations, List.mem_append, List.mem_append, List.mem_singleton] at h
      rcases h with (hleft | hright) | hself
      · exact ihl hleft
      · exact ihr hright
      · exact ⟨line, op, left, right, hself⟩
  | case2 e hbinary =>
      rw [operations.eq_2 e hbinary] at h
      contradiction

/-- **Arithmetic is exact, or it says why not**: if all operations of a tree have a value
over the integers that is a number, the tree has its value over the integers.  Otherwise it
fails on the line of the first operation that has none, for a division by zero if the right
operand is zero, and for an overflow if it is not. -/
theorem eval_exact (scope : Scope) (he : e.isArithmetic = true) :
    ((∀ node ∈ e.operations, node.fits = true) →
      ∃ value n, e.eval scope = .ok value ∧ value.number = .ok n ∧ e.integerValue? = some n.toInt ∧
        (e.operations ≠ [] → value = .int n)) ∧
    (¬(∀ node ∈ e.operations, node.fits = true) →
      ∃ line op left right,
        e.operations.find? (fun node => !node.fits) = some (.binary line op left right) ∧
        e.eval scope =
          .error ⟨if right.integerValue? = some 0 then .divisionByZero else .overflow, line⟩) := by
  refine ⟨eval_of_fits scope he, ?_⟩
  intro hall
  cases hfirst : e.operations.find? fun node => !node.fits with
  | none => exact absurd (by simpa [List.find?_eq_none] using hfirst) hall
  | some node =>
      have hmem : node ∈ e.operations := List.mem_of_find?_eq_some hfirst
      obtain ⟨line, op, left, right, rfl⟩ := exists_binary_of_mem_operations hmem
      exact ⟨line, op, left, right, rfl, eval_of_find?_operations scope he hfirst⟩

/-- A product that overflows and a division by zero: the one on the left is reported, on its
own line.  With a smaller factor and another divisor all is exact. -/
theorem eval_exact_competing :
    let scope : Scope := ⟨[], []⟩
    let zero : Expr := .binary 3 .sub (.literal 3 (.bool true)) (.literal 3 (.int 1))
    let quotient : Expr := .binary 3 .div (.literal 3 (.int (-7))) zero
    let product : Expr := .binary 2 .mul (.literal 2 (.char 'a')) (.literal 2 (.int .maxValue))
    let half : Expr := .binary 3 .div (.literal 3 (.int (-7))) (.literal 3 (.int 2))
    (binary 1 .add product quotient).eval scope = .error ⟨.overflow, 2⟩ ∧
    (binary 1 .add quotient product).eval scope = .error ⟨.divisionByZero, 3⟩ ∧
    ∃ n, (binary 1 .add (.literal 1 (.char 'a')) half).eval scope = .ok (.int n) ∧
      n.toInt = 94 := by
  intro scope zero quotient product half
  refine ⟨?_, ?_, ?_⟩
  · obtain ⟨line, op, left, right, hfirst, heval⟩ :=
      (eval_exact scope (e := binary 1 .add product quotient) rfl).2 (by decide)
    have hproduct : some product = some (.binary line op left right) := hfirst
    obtain ⟨rfl, rfl, rfl, rfl⟩ := binary.inj (Option.some.inj hproduct)
    exact heval
  · obtain ⟨line, op, left, right, hfirst, heval⟩ :=
      (eval_exact scope (e := binary 1 .add quotient product) rfl).2 (by decide)
    have hquotient : some quotient = some (.binary line op left right) := hfirst
    obtain ⟨rfl, rfl, rfl, rfl⟩ := binary.inj (Option.some.inj hquotient)
    exact heval
  · obtain ⟨value, n, heval, -, hexact, hint⟩ :=
      (eval_exact scope (e := binary 1 .add (.literal 1 (.char 'a')) half) rfl).1 (by decide)
    obtain rfl := hint (by simp [operations])
    exact ⟨n, heval, (Option.some.inj hexact).symm⟩

end Expr

end LineScript
