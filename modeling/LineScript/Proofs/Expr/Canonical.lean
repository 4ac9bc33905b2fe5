import LineScript.Expr.Operation
import LineScript.Proofs.Expr.Nodes

/-!
# LineScript.Proofs.Expr.Canonical

Reading an operand undoes writing it.  `flatten` writes an operand as the tokens
of its leaves and operators in order, without brackets, so many trees are
written alike; exactly one of them is *canonical*, and that is the one read
back.

* `splitLoosest_append` — a span has no second split at a loosest operator;
* `ofTokens_eq_ok_iff` — what is read is the canonical tree of the tokens;
* `ofTokens_exact` — it exists exactly for operands with operators between them.
-/

namespace LineScript

namespace Expr

/-! ## writing an operand -/

/-- The tokens of an operand in the order they are written.  A statement is no
operand and has none. -/
def flatten : Expr → List Token
  | literal _ value => [.literal value]
  | var _ name => [.word name]
  | not _ operand => .operator .not :: operand.flatten
  | binary _ op left right => left.flatten ++ .operator (.binary op) :: right.flatten
  | assign .. | print .. | branch .. | loop .. => []

/-- The trees that are told apart by their tokens.  In an operation, no operator
on the left is looser, every operator on the right is tighter, and the left side
does not start with `not`, which would take the operation as its operand. -/
inductive Canonical : Expr → Prop where
  | literal (line : Nat) (value : Scalar) : Canonical (.literal line value)
  | var (line : Nat) (name : String) : Canonical (.var line name)
  | not (line : Nat) {operand : Expr} (h : Canonical operand) : Canonical (.not line operand)
  | binary (line : Nat) {op : BinaryOp} {left right : Expr} (hl : Canonical left)
      (hr : Canonical right) (hleft : ∀ o, left.Uses o → op.bindingPower ≤ o.bindingPower)
      (hright : ∀ o, right.Uses o → op.bindingPower < o.bindingPower)
      (hstart : left.flatten.head? ≠ some (.operator .not)) :
      Canonical (.binary line op left right)

/-- Every node of the tree was written on the given line. -/
def OnLine (line : Nat) (e : Expr) : Prop := ∀ node ∈ e.nodes, node.line = line

@[simp] theorem onLine_literal {line n : Nat} {value : Scalar} :
    OnLine line (.literal n value) ↔ n = line := by
  simp [OnLine, nodes, Expr.line]

@[simp] theorem onLine_var {line n : Nat} {name : String} :
    OnLine line (.var n name) ↔ n = line := by
  simp [OnLine, nodes, Expr.line]

@[simp] theorem onLine_not {line n : Nat} {operand : Expr} :
    OnLine line (.not n operand) ↔ n = line ∧ OnLine line operand := by
  simp [OnLine, nodes, Expr.line]

@[simp] theorem onLine_binary {line n : Nat} {op : BinaryOp} {left right : Expr} :
    OnLine line (.binary n op left right) ↔ n = line ∧ OnLine line left ∧ OnLine line right := by
  simp [OnLine, nodes, Expr.line, or_imp, forall_and]

namespace Canonical

variable {e : Expr}

theorem flatten_ne_nil (h : Canonical e) : e.flatten ≠ [] := by
  cases h <;> simp [flatten]

/-- Operands are written without assignments. -/
theorem assign_notMem_flatten (h : Canonical e) : .operator .assign ∉ e.flatten := by
  induction h with
  | literal line value => simp [flatten]
  | var line name => simp [flatten]
  | not line h ih => simpa [flatten] using ih
  | binary line hl hr hleft hright hstart ihl ihr => simp [flatten, ihl, ihr]

/-- The operators of a tree are those among its tokens. -/
theorem mem_flatten_iff_uses (h : Canonical e) (op : BinaryOp) :
    .operator (.binary op) ∈ e.flatten ↔ e.Uses op := by
  induction h with
  | literal line value => simp [flatten, Uses, nodes]
  | var line name => simp [flatten, Uses, nodes]
  | not line h ih => simpa [flatten, Uses, nodes] using ih
  | binary line hl hr hleft hright hstart ihl ihr => simp [flatten, uses_binary, ihl, ihr]

end Canonical

/-! ## the split is the only one -/

/-- A span has no second split at a loosest operator: whichever operator meets
the conditions of a split is the one a span is cut at. -/
theorem splitLoosest_append {left right : List Token} {op : BinaryOp}
    (hleft : ∀ o, .operator (.binary o) ∈ left → op.bindingPower ≤ o.bindingPower)
    (hright : ∀ o, .operator (.binary o) ∈ right → op.bindingPower < o.bindingPower) :
    splitLoosest (left ++ .operator (.binary op) :: right) = some ⟨left, op, right⟩ := by
  induction left with
  | nil =>
      simp only [List.nil_append, splitLoosest]
      cases hs : splitLoosest right with
      | none => rfl
      | some s =>
          have hmem : .operator (.binary s.op) ∈ right := by simp [splitLoosest_eq_some hs]
          simp [hright _ hmem]
  | cons token left ih =>
      have hrest := ih fun o ho => hleft o (List.mem_cons_of_mem _ ho)
      rw [List.cons_append]
      unfold splitLoosest
      split
      · next heq => cases heq
      · next o rest heq =>
        cases heq
        have hge : ¬ o.bindingPower < op.bindingPower :=
          Nat.not_lt.mpr (hleft o List.mem_cons_self)
        simp [hrest, hge, Split.cons]
      · next hne heq =>
        cases heq
        simp [hrest, Split.cons]

/-! ## what reading does, step by step -/

theorem ofTokens_singleton (line : Nat) (token : Token) :
    ofTokens line [token] = ofToken line token := by
  unfold ofTokens
  rfl

/-- A span that `not` starts is its negation. -/
theorem ofTokens_not {line : Nat} {tokens : List Token} (hne : tokens ≠ [])
    (hassign : .operator .assign ∉ tokens) :
    ofTokens line (.operator .not :: tokens) = (ofTokens line tokens).map (.not line) := by
  conv => lhs; unfold ofTokens
  split
  · next heq => simp [hne] at heq
  · rw [if_neg (by simpa using hassign)]
    show (ofTokens line tokens).bind (fun operand => .ok (Expr.not line operand)) = _
    cases ofTokens line tokens <;> rfl

/-- A span with an assignment in it is no operand. -/
theorem ofTokens_of_assign {line : Nat} {tokens : List Token} (hlength : tokens.length ≠ 1)
    (hassign : .operator .assign ∈ tokens) :
    ofTokens line tokens = .error ⟨.misplacedAssignment, line⟩ := by
  unfold ofTokens
  split
  · contradiction
  · rw [if_pos hassign]

/-- A span that does not start with `not` is cut at its loosest operator. -/
theorem ofTokens_of_split {line : Nat} {tokens : List Token} (hlength : tokens.length ≠ 1)
    (hassign : .operator .assign ∉ tokens) (hstart : tokens.head? ≠ some (.operator .not)) :
    ofTokens line tokens =
      match splitLoosest tokens with
      | none => .error ⟨.expectedOperator, line⟩
      | some s =>
        if s.left.isEmpty then .error ⟨.missingOperand (.binary s.op), line⟩
        else do
          let left ← ofTokens line s.left
          if s.right.isEmpty then .error ⟨.missingOperand (.binary s.op), line⟩
          else do
            let right ← ofTokens line s.right
            return .binary line s.op left right := by
  conv => lhs; unfold ofTokens
  split
  · contradiction
  · rw [if_neg hassign]
    split
    · simp at hstart
    · split
      · next hnone => rw [hnone]
      · next s hs => simp only [hs]

/-- Any other span is an operation with its loosest operator. -/
theorem ofTokens_split {line : Nat} {tokens : List Token} {s : Split}
    (hs : splitLoosest tokens = some s) (hassign : .operator .assign ∉ tokens)
    (hstart : tokens.head? ≠ some (.operator .not)) (hl : s.left ≠ []) (hr : s.right ≠ []) :
    ofTokens line tokens = (do
      let left ← ofTokens line s.left
      let right ← ofTokens line s.right
      return .binary line s.op left right) := by
  have hlength : tokens.length ≠ 1 := by
    have hspan := congrArg List.length (splitLoosest_eq_some hs)
    have hpos := List.length_pos_iff.mpr hl
    simp at hspan
    omega
  rw [ofTokens_of_split hlength hassign hstart, hs]
  simp [hl, hr]

/-- What a span that can be read looks like: a single token, a negation, or two
operands around the loosest operator. -/
theorem ofTokens_cases {line : Nat} {tokens : List Token} {e : Expr}
    (h : ofTokens line tokens = .ok e) :
    (∃ token, tokens = [token] ∧ ofToken line token = .ok e) ∨
    (.operator .assign ∉ tokens ∧ ∃ rest operand, tokens = .operator .not :: rest ∧
      ofTokens line rest = .ok operand ∧ e = .not line operand) ∨
    (.operator .assign ∉ tokens ∧ tokens.head? ≠ some (.operator .not) ∧
      ∃ s left right, splitLoosest tokens = some s ∧ ofTokens line s.left = .ok left ∧
        ofTokens line s.right = .ok right ∧ e = .binary line s.op left right) := by
  unfold ofTokens at h
  split at h
  · next token => exact .inl ⟨token, rfl, h⟩
  · split at h
    · contradiction
    · next hassign =>
      split at h
      · next rest _ =>
        cases hrest : ofTokens line rest with
        | error f => simp [hrest, bind, Except.bind] at h
        | ok operand =>
            simp only [hrest, bind, Except.bind, pure, Except.pure, Except.ok.injEq] at h
            exact .inr (.inl ⟨hassign, rest, operand, rfl, hrest, h.symm⟩)
      · next hstart =>
        split at h
        · contradiction
        · next s hs =>
          split at h
          · contradiction
          · cases hleft : ofTokens line s.left with
            | error f => simp [hleft, bind, Except.bind] at h
            | ok left =>
                simp only [hleft, bind, Except.bind] at h
                split at h
                · contradiction
                · cases hright : ofTokens line s.right with
                  | error f => simp [hright] at h
                  | ok right =>
                      simp only [hright, pure, Except.pure, Except.ok.injEq] at h
                      refine .inr (.inr ⟨hassign, ?_, s, left, right, hs, hleft, hright, h.symm⟩)
                      intro hhead
                      obtain ⟨rest, rfl⟩ := List.head?_eq_some_iff.mp hhead
                      exact hstart rest rfl

/-- Only a literal or a word is an operand by itself. -/
theorem ofToken_eq_ok_iff {line : Nat} {token : Token} {e : Expr} :
    ofToken line token = .ok e ↔
      (∃ value, token = .literal value ∧ e = .literal line value) ∨
        ∃ name, token = .word name ∧ e = .var line name := by
  cases token <;> simp [ofToken, eq_comm]

/-! ## reading undoes writing -/

/-- What is read is canonical, on its line, and written as the tokens it was
read from. -/
theorem canonical_of_ofTokens {line : Nat} {tokens : List Token} {e : Expr}
    (h : ofTokens line tokens = .ok e) : e.Canonical ∧ e.OnLine line ∧ e.flatten = tokens := by
  -- Both sides of a split, and what follows a `not`, are shorter than the span.
  induction hn : tokens.length using Nat.strongRecOn generalizing tokens e with
  | ind n ih =>
      subst hn
      rcases ofTokens_cases h with ⟨token, rfl, htoken⟩ | ⟨-, rest, operand, rfl, hrest, rfl⟩ |
        ⟨-, hstart, s, left, right, hs, hleft, hright, rfl⟩
      · rcases ofToken_eq_ok_iff.mp htoken with ⟨value, rfl, rfl⟩ | ⟨name, rfl, rfl⟩
        · exact ⟨.literal line value, by simp, rfl⟩
        · exact ⟨.var line name, by simp, rfl⟩
      · obtain ⟨hcan, hline, hflat⟩ := ih rest.length (by simp) hrest rfl
        exact ⟨.not line hcan, by simp [hline], by simp [flatten, hflat]⟩
      · obtain ⟨hlenl, hlenr⟩ := length_lt_of_splitLoosest hs
        obtain ⟨hcanl, hlinel, hflatl⟩ := ih _ hlenl hleft rfl
        obtain ⟨hcanr, hliner, hflatr⟩ := ih _ hlenr hright rfl
        have hflat : (Expr.binary line s.op left right).flatten = tokens := by
          rw [flatten, hflatl, hflatr, ← splitLoosest_eq_some hs]
        refine ⟨.binary line hcanl hcanr ?_ ?_ ?_, by simp [hlinel, hliner], hflat⟩
        · intro o ho
          rw [← hcanl.mem_flatten_iff_uses, hflatl] at ho
          exact (bindingPower_of_splitLoosest hs o).1 ho
        · intro o ho
          rw [← hcanr.mem_flatten_iff_uses, hflatr] at ho
          exact (bindingPower_of_splitLoosest hs o).2 ho
        · intro hnot
          rw [← hflat, flatten, List.head?_append, hnot] at hstart
          exact hstart rfl

theorem canonical_of_read {line : Nat} {tokens : List Token} {e : Expr}
    (h : ofTokens line tokens = .ok e) : e.Canonical := (canonical_of_ofTokens h).1

theorem onLine_of_read {line : Nat} {tokens : List Token} {e : Expr}
    (h : ofTokens line tokens = .ok e) : e.OnLine line := (canonical_of_ofTokens h).2.1

/-- A canonical tree is read back from its tokens. -/
theorem Canonical.ofTokens_flatten {line : Nat} {e : Expr} (h : e.Canonical)
    (hline : e.OnLine line) : ofTokens line e.flatten = .ok e := by
  induction h with
  | literal n value =>
      obtain rfl : n = line := by simpa using hline
      exact ofTokens_singleton n _
  | var n name =>
      obtain rfl : n = line := by simpa using hline
      exact ofTokens_singleton n _
  | not n h ih =>
      obtain ⟨rfl, hoperand⟩ := onLine_not.mp hline
      rw [flatten, ofTokens_not h.flatten_ne_nil h.assign_notMem_flatten, ih hoperand]
      rfl
  | @binary n op left right hl hr hleft hright hstart ihl ihr =>
      obtain ⟨rfl, hlinel, hliner⟩ := onLine_binary.mp hline
      have hs : splitLoosest (left.flatten ++ .operator (.binary op) :: right.flatten) =
          some ⟨left.flatten, op, right.flatten⟩ :=
        splitLoosest_append (fun o ho => hleft o ((hl.mem_flatten_iff_uses o).mp ho))
          fun o ho => hright o ((hr.mem_flatten_iff_uses o).mp ho)
      have hassign : .operator .assign ∉
          left.flatten ++ .operator (.binary op) :: right.flatten := by
        simp [hl.assign_notMem_flatten, hr.assign_notMem_flatten]
      have hhead : (left.flatten ++ .operator (.binary op) :: right.flatten).head? ≠
          some (.operator .not) := by
        cases hflat : left.flatten with
        | nil => exact absurd hflat hl.flatten_ne_nil
        | cons token tokens => simpa [hflat] using hstart
      rw [flatten, ofTokens_split hs hassign hhead hl.flatten_ne_nil hr.flatten_ne_nil, ihl hlinel,
        ihr hliner]
      rfl

theorem ofTokens_eq_ok_iff {line : Nat} {tokens : List Token} {e : Expr} :
    ofTokens line tokens = .ok e ↔ e.Canonical ∧ e.OnLine line ∧ e.flatten = tokens := by
  constructor
  · exact canonical_of_ofTokens
  · rintro ⟨hcan, hline, rfl⟩
    exact hcan.ofTokens_flatten hline

/-! ## which tokens can be read -/

/-- A literal or a word after any number of `not`. -/
inductive Operand : List Token → Prop where
  | literal (value : Scalar) : Operand [.literal value]
  | word (name : String) : Operand [.word name]
  | not {tokens : List Token} (h : Operand tokens) : Operand (.operator .not :: tokens)

/-- Operands with operators between them. -/
inductive Chain : List Token → Prop where
  | operand {tokens : List Token} (h : Operand tokens) : Chain tokens
  | append {tokens last : List Token} (op : BinaryOp) (h : Chain tokens) (hlast : Operand last) :
      Chain (tokens ++ .operator (.binary op) :: last)

namespace Chain

theorem ne_nil {tokens : List Token} (h : Chain tokens) : tokens ≠ [] := by
  cases h with
  | operand h => cases h <;> simp
  | append op h hlast => simp

/-- A chain may stand where an operand does after `not`. -/
theorem not {tokens : List Token} (h : Chain tokens) : Chain (.operator .not :: tokens) := by
  induction h with
  | operand h => exact .operand (.not h)
  | append op h hlast ih => exact .append op ih hlast

/-- Two chains around an operator are a chain. -/
theorem append_chain {left right : List Token} (op : BinaryOp) (hl : Chain left)
    (hr : Chain right) : Chain (left ++ .operator (.binary op) :: right) := by
  induction hr with
  | operand h => exact .append op hl h
  | @append tokens last o h hlast ih => simpa using Chain.append o ih hlast

end Chain

theorem Operand.binary_notMem {tokens : List Token} (h : Operand tokens) (op : BinaryOp) :
    .operator (.binary op) ∉ tokens := by
  induction h with
  | literal value => simp
  | word name => simp
  | not h ih => simpa using ih

theorem Operand.assign_notMem {tokens : List Token} (h : Operand tokens) :
    .operator .assign ∉ tokens := by
  induction h with
  | literal value => simp
  | word name => simp
  | not h ih => simpa using ih

namespace Chain

theorem assign_notMem {tokens : List Token} (h : Chain tokens) : .operator .assign ∉ tokens := by
  induction h with
  | operand h => exact h.assign_notMem
  | append op h hlast ih => simp [ih, hlast.assign_notMem]

/-- What follows a leading `not` is a chain. -/
theorem of_not {tokens rest : List Token} (h : Chain tokens)
    (heq : tokens = .operator .not :: rest) : Chain rest := by
  induction h generalizing rest with
  | operand h =>
      cases h with
      | literal value => simp at heq
      | word name => simp at heq
      | not h =>
          obtain ⟨-, rfl⟩ := List.cons.inj heq
          exact .operand h
  | @append tokens last op h hlast ih =>
      cases tokens with
      | nil => exact absurd rfl h.ne_nil
      | cons token tokens =>
          obtain ⟨rfl, rfl⟩ := List.cons.inj heq
          exact .append op (ih rfl) hlast

/-- Both sides of any operator between operands are chains. -/
theorem of_append {tokens left right : List Token} {op : BinaryOp} (h : Chain tokens)
    (heq : tokens = left ++ .operator (.binary op) :: right) : Chain left ∧ Chain right := by
  induction h generalizing right with
  | operand h => exact absurd (by simp [heq]) (h.binary_notMem op)
  | @append tokens last o h hlast ih =>
      -- The operator is the last one, or it stands in the chain before it.
      rcases List.append_eq_append_iff.mp heq with ⟨middle, rfl, hmiddle⟩ | ⟨middle, rfl, hmiddle⟩
      · cases middle with
        | nil =>
            simp only [List.nil_append, List.cons.injEq] at hmiddle
            obtain ⟨-, rfl⟩ := hmiddle
            exact ⟨by simpa using h, .operand hlast⟩
        | cons token middle =>
            obtain ⟨-, rfl⟩ := List.cons.inj hmiddle
            exact absurd (by simp) (hlast.binary_notMem op)
      · cases middle with
        | nil =>
            simp only [List.nil_append, List.cons.injEq] at hmiddle
            obtain ⟨-, rfl⟩ := hmiddle
            exact ⟨by simpa using h, .operand hlast⟩
        | cons token middle =>
            obtain ⟨rfl, rfl⟩ := List.cons.inj hmiddle
            obtain ⟨hl, hr⟩ := ih rfl
            exact ⟨hl, .append o hr hlast⟩

/-- A chain without an operator between operands is one operand. -/
theorem operand_of_splitLoosest {tokens : List Token} (h : Chain tokens)
    (hnone : splitLoosest tokens = none) : Operand tokens := by
  cases h with
  | operand h => exact h
  | append op h hlast => exact absurd (by simp) (splitLoosest_eq_none hnone op)

/-- Every chain can be read. -/
theorem exists_ofTokens {tokens : List Token} (line : Nat) (h : Chain tokens) :
    ∃ e, ofTokens line tokens = .ok e := by
  induction hn : tokens.length using Nat.strongRecOn generalizing tokens with
  | ind n ih =>
      subst hn
      by_cases hstart : tokens.head? = some (.operator .not)
      · obtain ⟨rest, rfl⟩ := List.head?_eq_some_iff.mp hstart
        have hrest := h.of_not rfl
        obtain ⟨operand, hoperand⟩ := ih rest.length (by simp) hrest rfl
        have hread : ofTokens line (.operator .not :: rest) = _ :=
          ofTokens_not hrest.ne_nil hrest.assign_notMem
        rw [hoperand] at hread
        exact ⟨.not line operand, hread⟩
      · cases hs : splitLoosest tokens with
        | none =>
            cases h.operand_of_splitLoosest hs with
            | literal value => exact ⟨.literal line value, ofTokens_singleton line _⟩
            | word name => exact ⟨.var line name, ofTokens_singleton line _⟩
            | not h => simp at hstart
        | some s =>
            obtain ⟨hlenl, hlenr⟩ := length_lt_of_splitLoosest hs
            obtain ⟨hl, hr⟩ := h.of_append (splitLoosest_eq_some hs)
            obtain ⟨left, hleft⟩ := ih _ hlenl hl rfl
            obtain ⟨right, hright⟩ := ih _ hlenr hr rfl
            exact ⟨.binary line s.op left right, by
              rw [ofTokens_split hs h.assign_notMem hstart hl.ne_nil hr.ne_nil, hleft, hright]; rfl⟩

end Chain

/-- The tokens of a canonical tree are a chain. -/
theorem Canonical.chain_flatten {e : Expr} (h : e.Canonical) : Chain e.flatten := by
  induction h with
  | literal line value => exact .operand (.literal value)
  | var line name => exact .operand (.word name)
  | not line h ih => exact ih.not
  | @binary line op left right hl hr hleft hright hstart ihl ihr => exact ihl.append_chain op ihr

/-- **Reading is the inverse of writing**: what is read from tokens is the one
canonical tree on the line that is written as these tokens, and there is one
exactly for operands with operators between them. -/
theorem ofTokens_exact (line : Nat) (tokens : List Token) :
    (∀ e, ofTokens line tokens = .ok e ↔ e.Canonical ∧ e.OnLine line ∧ e.flatten = tokens) ∧
      ((∃ e : Expr, e.Canonical ∧ e.OnLine line ∧ e.flatten = tokens) ↔ Chain tokens) := by
  refine ⟨fun e => ofTokens_eq_ok_iff, ?_, ?_⟩
  · rintro ⟨e, hcan, -, rfl⟩
    exact hcan.chain_flatten
  · intro h
    obtain ⟨e, he⟩ := h.exists_ofTokens line
    exact ⟨e, ofTokens_eq_ok_iff.mp he⟩

end Expr

end LineScript
