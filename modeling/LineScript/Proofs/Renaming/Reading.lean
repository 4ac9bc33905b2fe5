import LineScript.Proofs.Block.Levels
import LineScript.Proofs.Program.Cases
import LineScript.Proofs.Program.Faults
import LineScript.Proofs.Renaming.Basic
import Mathlib.Data.List.Basic

/-!
# LineScript.Proofs.Renaming.Reading

Reading renamed lines.  Numbers of lines are handed on and never looked at, and names
are only compared with each other, so that renamed lines are read as the renamed
program, and what cannot be read fails with the renamed fault.

* `Renaming.groupLines_eq` — the groups of lines;
* `Renaming.ofTokens_eq` — operands;
* `Renaming.parse_eq` — programs.
-/

namespace LineScript

namespace Renaming

variable (ρ : Renaming)

/-- The renaming of a fault in the grammar. -/
abbrev parseFault : Fault ParseCause → Fault ParseCause := ρ.fault ρ.parseCause

/-! ## tokens -/

@[simp] theorem token_eq_operator_iff {t : Token} {op : Operator} :
    ρ.token t = .operator op ↔ t = .operator op := by
  cases t <;> simp [token]

theorem operator_mem_map_iff {op : Operator} {tokens : List Token} :
    .operator op ∈ tokens.map ρ.token ↔ .operator op ∈ tokens := by
  simp

theorem keyword?_token (t : Token) : (ρ.token t).keyword? = t.keyword? := by
  cases t <;> rfl

theorem isOperator_token (t : Token) : (ρ.token t).isOperator = t.isOperator := by
  cases t <;> rfl

theorem keyword?_sourceLine (line : SourceLine) : (ρ.sourceLine line).keyword? = line.keyword? := by
  obtain ⟨number, tokens⟩ := line
  cases tokens with
  | nil => rfl
  | cons t tokens => exact ρ.keyword?_token t

theorem isUnknownConstruction_map (tokens : List Token) :
    isUnknownConstruction (tokens.map ρ.token) = isUnknownConstruction tokens := by
  match tokens with
  | [] => rfl
  | [t] => cases t <;> rfl
  | t :: u :: tokens => cases t <;> cases u <;> rfl

/-! ## grouping -/

theorem place_eq (depth : Nat) (line : SourceLine) :
    place depth (ρ.sourceLine line) = (place depth line).bimap ρ.parseFault id := by
  have hunknown : isUnknownConstruction (ρ.sourceLine line).tokens =
      isUnknownConstruction line.tokens := ρ.isUnknownConstruction_map line.tokens
  unfold place
  rw [hunknown, ρ.keyword?_sourceLine]
  split
  · rfl
  · split
    · cases depth <;> rfl
    · cases depth <;> rfl
    · rfl
    · rfl

theorem groupFrom_eq (depth opener : Nat) (lines : List SourceLine) :
    groupFrom depth (ρ.line opener) (lines.map ρ.sourceLine) =
      (groupFrom depth opener lines).bimap ρ.parseFault
        (Prod.map (List.map ρ.nestedLine) (List.map ρ.group)) := by
  induction lines generalizing depth opener with
  | nil =>
      rw [List.map_nil, groupFrom, groupFrom]
      split <;> rfl
  | cons line lines ih =>
      have hopener : (if depth = 0 then (ρ.sourceLine line).number else ρ.line opener) =
          ρ.line (if depth = 0 then line.number else opener) := by
        split <;> rfl
      rw [List.map_cons, groupFrom, groupFrom, ρ.place_eq, hopener]
      refine Except.bimap_bind _ fun placed => ?_
      obtain ⟨level, after⟩ := placed
      simp only [id_eq, ih]
      refine Except.bimap_bind _ fun grouped => ?_
      obtain ⟨rest, groups⟩ := grouped
      by_cases hdepth : depth = 0
      · simp only [if_pos hdepth]
        rfl
      · simp only [if_neg hdepth]
        rfl

/-- The groups of renamed lines. -/
theorem groupLines_eq (lines : List SourceLine) :
    groupLines (lines.map ρ.sourceLine) =
      (groupLines lines).bimap ρ.parseFault (List.map ρ.group) := by
  have hopener : groupFrom 0 (ρ.line 0) (lines.map ρ.sourceLine) =
      groupFrom 0 0 (lines.map ρ.sourceLine) := by
    rw [groupFrom_zero, groupFrom_zero]
  rw [groupLines, ← hopener, ρ.groupFrom_eq, groupLines]
  cases groupFrom 0 0 lines <;> rfl

/-! ## operands -/

/-- A renamed split. -/
def split (s : Expr.Split) : Expr.Split := ⟨s.left.map ρ.token, s.op, s.right.map ρ.token⟩

theorem splitLoosest_eq (tokens : List Token) :
    Expr.splitLoosest (tokens.map ρ.token) = (Expr.splitLoosest tokens).map ρ.split := by
  induction tokens with
  | nil => rfl
  | cons t tokens ih =>
      by_cases hbinary : ∃ op, t = .operator (.binary op)
      · obtain ⟨op, rfl⟩ := hbinary
        have htoken : ρ.token (.operator (.binary op)) = .operator (.binary op) := rfl
        rw [List.map_cons, htoken, Expr.splitLoosest, Expr.splitLoosest, ih]
        cases Expr.splitLoosest tokens with
        | none => rfl
        | some s =>
            have hop : (ρ.split s).op = s.op := rfl
            simp only [Option.map_some, hop]
            split <;> rfl
      · have hne : ∀ op, t ≠ .operator (.binary op) := fun op h => hbinary ⟨op, h⟩
        have hne' : ∀ op, ρ.token t ≠ .operator (.binary op) := by simpa using hne
        rw [List.map_cons, Expr.splitLoosest.eq_3 _ _ hne', Expr.splitLoosest.eq_3 _ _ hne, ih,
          Option.map_map, Option.map_map]
        rfl

theorem ofToken_eq (line : Nat) (t : Token) :
    Expr.ofToken (ρ.line line) (ρ.token t) = (Expr.ofToken line t).bimap ρ.parseFault ρ.expr := by
  cases t <;> rfl

/-- Operands of renamed tokens. -/
theorem ofTokens_eq (line : Nat) (tokens : List Token) :
    Expr.ofTokens (ρ.line line) (tokens.map ρ.token) =
      (Expr.ofTokens line tokens).bimap ρ.parseFault ρ.expr := by
  have hlength : ∀ tokens : List Token, (∀ t, tokens = [t] → False) →
      (tokens.map ρ.token).length ≠ 1 := by
    intro tokens hsingle h
    rw [List.length_map] at h
    obtain ⟨t, ht⟩ := List.length_eq_one_iff.mp h
    exact hsingle t ht
  have hassign : ∀ {tokens : List Token}, .operator .assign ∉ tokens →
      .operator .assign ∉ tokens.map ρ.token := fun h => mt ρ.operator_mem_map_iff.mp h
  have hstart : ∀ tokens : List Token, (∀ rest, tokens = .operator .not :: rest → False) →
      (tokens.map ρ.token).head? ≠ some (.operator .not) := by
    intro tokens hnot h
    cases tokens with
    | nil => contradiction
    | cons t rest =>
        have ht : t = .operator .not := by simpa using h
        exact hnot rest (by rw [ht])
  fun_induction Expr.ofTokens line tokens with
  | case1 token =>
      rw [List.map_singleton, Expr.ofTokens_singleton]
      exact ρ.ofToken_eq line token
  | case2 tokens hsingle hmem =>
      exact Expr.ofTokens_of_assign (hlength tokens hsingle) (ρ.operator_mem_map_iff.mpr hmem)
  | case3 rest hsingle hmem ih =>
      have hne : rest.map ρ.token ≠ [] := by
        intro h
        rw [List.map_eq_nil_iff] at h
        exact hsingle _ (by rw [h])
      have hrest : .operator .assign ∉ rest := fun h => hmem (List.mem_cons_of_mem _ h)
      have hnot : ρ.token (.operator .not) = .operator .not := rfl
      rw [List.map_cons, hnot, Expr.ofTokens_not hne (hassign hrest), ih]
      cases Expr.ofTokens line rest <;> rfl
  | case4 tokens hnot hsplit hsingle hmem =>
      rw [Expr.ofTokens_of_split (hlength tokens hsingle) (hassign hmem) (hstart tokens hnot),
        ρ.splitLoosest_eq, hsplit]
      rfl
  | case5 tokens hnot s hsplit _ hleft hsingle hmem =>
      have hleft' : (ρ.split s).left.isEmpty = true := by simpa [split] using hleft
      rw [Expr.ofTokens_of_split (hlength tokens hsingle) (hassign hmem) (hstart tokens hnot),
        ρ.splitLoosest_eq, hsplit, Option.map_some]
      simp only [if_pos hleft']
      rfl
  | case6 tokens hnot s hsplit _ hleft hsingle hmem ihleft ihright =>
      have hleft' : ¬(ρ.split s).left.isEmpty = true := by simpa [split] using hleft
      have hright : (ρ.split s).right.isEmpty = s.right.isEmpty := List.isEmpty_map
      rw [Expr.ofTokens_of_split (hlength tokens hsingle) (hassign hmem) (hstart tokens hnot),
        ρ.splitLoosest_eq, hsplit, Option.map_some]
      simp only [if_neg hleft', hright]
      rw [show (ρ.split s).left = s.left.map ρ.token from rfl,
        show (ρ.split s).right = s.right.map ρ.token from rfl, ihleft]
      refine Except.bimap_bind _ fun left => ?_
      split
      · rfl
      · rw [ihright]
        exact Except.bimap_bind _ fun right => rfl

/-! ## the parts of a line -/

theorem splitAssign_eq (tokens : List Token) :
    Parse.splitAssign (tokens.map ρ.token) =
      (Parse.splitAssign tokens).map (Prod.map (List.map ρ.token) (List.map ρ.token)) := by
  induction tokens with
  | nil => rfl
  | cons t tokens ih =>
      rw [List.map_cons, Parse.splitAssign, Parse.splitAssign, ih]
      by_cases hassign : t = .operator .assign
      · rw [if_pos hassign, if_pos (ρ.token_eq_operator_iff.mpr hassign)]
        rfl
      · rw [if_neg hassign, if_neg (mt ρ.token_eq_operator_iff.mp hassign), Option.map_map,
          Option.map_map]
        rfl

theorem printed_eq (line : Nat) (args : List Token) :
    Parse.printed (ρ.line line) (args.map ρ.token) =
      (Parse.printed line args).bimap ρ.parseFault ρ.expr := by
  have hany : (args.map ρ.token).any Token.isOperator = args.any Token.isOperator := by
    rw [List.any_map]
    exact congrArg _ (funext ρ.isOperator_token)
  unfold Parse.printed
  rw [hany]
  split
  · exact ρ.ofTokens_eq line args
  · match args with
    | [] => rfl
    | [t] => cases t <;> rfl
    | t :: u :: args => cases t <;> rfl

theorem controlling_eq (k : Keyword) (line : Nat) (args : List Token) :
    Parse.controlling k (ρ.line line) (args.map ρ.token) =
      (Parse.controlling k line args).bimap ρ.parseFault ρ.expr := by
  unfold Parse.controlling
  rw [List.isEmpty_map]
  split
  · rfl
  · exact ρ.ofTokens_eq line args

theorem isRange_expr (e : Expr) : (ρ.expr e).isRange = e.isRange := by
  cases e with
  | branch _ _ _ otherwise => cases otherwise <;> rfl
  | literal | var | not | binary | assign | print | loop => rfl

/-- A renamed header with a name comes from a header with a name. -/
theorem exists_of_expr_eq_isIn {e range : Expr} {l n : Nat} {name : String}
    (h : ρ.expr e = .binary l .isIn (.var n name) range) :
    ∃ l' n' name' range', e = .binary l' .isIn (.var n' name') range' ∧ ρ.name name' = name ∧
      ρ.expr range' = range := by
  cases e with
  | binary l' op left range' =>
      rw [expr, Expr.binary.injEq] at h
      obtain ⟨-, rfl, hleft, hrange⟩ := h
      cases left with
      | var n' name' =>
          rw [expr, Expr.var.injEq] at hleft
          exact ⟨l', n', name', range', rfl, hleft.2, hrange⟩
      | branch _ _ _ otherwise => cases otherwise <;> contradiction
      | literal | not | binary | assign | print | loop => contradiction
  | branch _ _ _ otherwise => cases otherwise <;> contradiction
  | literal | var | not | assign | print | loop => contradiction

theorem loopHeader_eq (line : Nat) (args : List Token) :
    Parse.loopHeader (ρ.line line) (args.map ρ.token) =
      (Parse.loopHeader line args).bimap ρ.parseFault (Prod.map (Option.map ρ.name) ρ.expr) := by
  unfold Parse.loopHeader
  rw [ρ.controlling_eq]
  refine Except.bimap_bind _ fun header => ?_
  split
  · next l n name range hheader =>
    obtain ⟨l', n', name', range', rfl, rfl, rfl⟩ := ρ.exists_of_expr_eq_isIn hheader
    simp only [ρ.isRange_expr]
    split <;> rfl
  · next hnot =>
    have hnot' : ∀ l n name range, header ≠ .binary l .isIn (.var n name) range := by
      rintro l n name range rfl
      exact hnot _ _ _ _ (by rw [expr, expr])
    rw [ρ.isRange_expr]
    split <;> split
    · next hheader => exact absurd rfl (hnot' _ _ _ _)
    · rfl
    · next hheader => exact absurd rfl (hnot' _ _ _ _)
    · rfl

/-! ## the parts of a block -/

theorem splitElse_eq (lines : List NestedLine) :
    Parse.splitElse (lines.map ρ.nestedLine) =
      (Parse.splitElse lines).map fun (before, divider, after) =>
        (before.map ρ.nestedLine, ρ.nestedLine divider, after.map ρ.nestedLine) := by
  induction lines with
  | nil => rfl
  | cons line lines ih =>
      have hkeyword : (ρ.nestedLine line).keyword? = line.keyword? :=
        ρ.keyword?_sourceLine line.toSourceLine
      have hlevel : (ρ.nestedLine line).level = line.level := rfl
      rw [List.map_cons, Parse.splitElse, Parse.splitElse, ih, hkeyword, hlevel]
      split
      · rfl
      · rw [Option.map_map, Option.map_map]
        rfl

theorem checkClosing_eq (line : NestedLine) :
    Parse.checkClosing (ρ.nestedLine line) =
      (Parse.checkClosing line).bimap ρ.parseFault id := by
  obtain ⟨⟨number, tokens⟩, level⟩ := line
  match tokens with
  | [] => rfl
  | [t] => 
    cases t with
    | keyword k => cases k <;> rfl
    | _ => rfl
  | t :: u :: tokens => 
    cases t with
    | keyword k => cases k <;> rfl
    | _ => rfl

theorem branchBody_eq (lines : List NestedLine) :
    Parse.branchBody (lines.map ρ.nestedLine) =
      (Parse.branchBody lines).bimap ρ.parseFault (List.map ρ.sourceLine) := by
  have hfind : (lines.map ρ.nestedLine).find? (·.level = 0) =
      (lines.find? (·.level = 0)).map ρ.nestedLine := by
    rw [List.find?_map]
    rfl
  have htake : ((lines.map ρ.nestedLine).takeWhile (·.level ≠ 0)).map (·.toSourceLine) =
      ((lines.takeWhile (·.level ≠ 0)).map (·.toSourceLine)).map ρ.sourceLine := by
    rw [List.takeWhile_map, List.map_map, List.map_map]
    rfl
  unfold Parse.branchBody
  rw [hfind, htake]
  cases lines.find? (·.level = 0) with
  | none => rfl
  | some closing =>
      simp only [Option.map_some, ρ.checkClosing_eq]
      exact Except.bimap_bind _ fun _ => rfl

/-! ## statements -/

/-- Reading goes the same way on renamed names, with a renamed result. -/
abbrev Reads {α : Type} (g : α → α) : Parse α → Parse α → Prop :=
  EStateM.Carries ρ.parseFault (List.map ρ.name) g

theorem assignment_eq (line : Nat) (name : String) (right : List Token) :
    ρ.Reads ρ.expr (Parse.operation line (.word name :: .operator .assign :: right))
      (Parse.operation (ρ.line line)
        (.word (ρ.name name) :: .operator .assign :: right.map ρ.token)) := by
  intro names
  have hmem : ρ.name name ∈ names.map ρ.name ↔ name ∈ names :=
    List.mem_map_of_injective ρ.name_injective
  rw [Parse.operation_assign, Parse.operation_assign, List.isEmpty_map, ρ.ofTokens_eq]
  by_cases hname : name ∈ names
  · rw [if_pos hname, if_pos (hmem.mpr hname)]
    rfl
  · rw [if_neg hname, if_neg (mt hmem.mp hname)]
    by_cases hright : right.isEmpty = true
    · rw [if_pos hright, if_pos hright]
      rfl
    · rw [if_neg hright, if_neg hright]
      cases Expr.ofTokens line right <;> rfl

/-- Only a word is renamed to a word. -/
theorem exists_word_of_map_eq {tokens : List Token} {name : String}
    (h : tokens.map ρ.token = [.word name]) : ∃ old, tokens = [.word old] := by
  obtain ⟨t, rfl, ht⟩ := List.map_eq_singleton_iff.mp h
  cases t with
  | word old => exact ⟨old, rfl⟩
  | literal | keyword | operator => contradiction

theorem operation_eq (line : Nat) (tokens : List Token) :
    ρ.Reads ρ.expr (Parse.operation line tokens)
      (Parse.operation (ρ.line line) (tokens.map ρ.token)) := by
  cases hsplit : Parse.splitAssign tokens with
  | none =>
      rw [Parse.operation, hsplit, Parse.operation, ρ.splitAssign_eq, hsplit]
      exact .ofExcept (ρ.ofTokens_eq line tokens)
  | some parts =>
      obtain ⟨left, right⟩ := parts
      by_cases hleft : ∃ name, left = [.word name]
      · obtain ⟨name, rfl⟩ := hleft
        obtain rfl := Parse.splitAssign_eq_some hsplit
        exact ρ.assignment_eq line name right
      · rw [Parse.operation, hsplit, Parse.operation, ρ.splitAssign_eq, hsplit]
        split
        · contradiction
        · next heq => cases heq; exact absurd ⟨_, rfl⟩ hleft
        · split
          · contradiction
          · next name more heq =>
            have hmap : left.map ρ.token = [.word name] := by
              rw [Option.map_some, Option.some.injEq] at heq
              exact congrArg Prod.fst heq
            exact absurd (ρ.exists_word_of_map_eq hmap) hleft
          · exact .throw _

mutual

/-- The statement of a renamed group. -/
theorem statement_eq : (g : Group) →
    ρ.Reads ρ.expr (Parse.statement g) (Parse.statement (ρ.group g))
  | ⟨⟨⟨number, tokens⟩, level⟩, rest⟩ => by
      have hgroup : ρ.group ⟨⟨⟨number, tokens⟩, level⟩, rest⟩ =
          ⟨⟨⟨ρ.line number, tokens.map ρ.token⟩, level⟩, rest.map ρ.nestedLine⟩ := rfl
      rw [hgroup, Parse.statement, Parse.statement]
      match tokens with
      | .keyword .print :: args => exact .bind (.ofExcept (ρ.printed_eq number args)) fun _ => .pure _
      | .keyword .ifTrue :: args => exact branch_eq number args rest
      | .keyword .forEach :: args =>
          exact .bind (.ofExcept (ρ.loopHeader_eq number args)) fun (name, range) =>
            .bind (block_eq rest) fun _ => .pure _
      | .keyword .whileTrue :: _ => exact .throw _
      | .keyword .orElse :: _ => exact .throw _
      | .keyword .endBlock :: _ => exact .throw _
      | .word name :: .operator op :: more =>
          exact ρ.operation_eq number (.word name :: .operator op :: more)
      | [] => exact .throw _
      | [.word _] => exact .throw _
      | .literal _ :: _ => exact .throw _
      | .operator _ :: _ => exact .throw _
      | .word _ :: .literal _ :: _ => exact .throw _
      | .word _ :: .keyword _ :: _ => exact .throw _
      | .word _ :: .word _ :: _ => exact .throw _
termination_by g => (g.size, 0)
decreasing_by all_goals (apply Prod.Lex.left; simp [Group.size])

theorem statements_eq : (groups : List Group) →
    ρ.Reads ρ.exprs (Parse.statements groups) (Parse.statements (groups.map ρ.group))
  | [] => by
      rw [List.map_nil, Parse.statements]
      exact .pure _
  | g :: groups => by
      rw [List.map_cons, Parse.statements, Parse.statements]
      exact .bind (statement_eq g) fun _ => .bind (statements_eq groups) fun _ => .pure _
termination_by groups => (Group.sizes groups, 1)
decreasing_by
  · rw [Group.sizes]
    rcases Nat.eq_zero_or_pos (Group.sizes groups) with h | h
    · rw [h]; exact Prod.Lex.right _ (by decide)
    · exact Prod.Lex.left _ _ (by omega)
  · apply Prod.Lex.left
    simp [Group.sizes, Group.size]

theorem block_eq (lines : List NestedLine) :
    ρ.Reads ρ.exprs (Parse.block lines) (Parse.block (lines.map ρ.nestedLine)) := by
  rw [Parse.block_eq_bind, Parse.block_eq_bind, ρ.branchBody_eq]
  cases hbody : Parse.branchBody lines with
  | error fault => exact .throw fault
  | ok body =>
      show ρ.Reads ρ.exprs (MonadExcept.ofExcept (groupLines body) >>= Parse.statements)
        (MonadExcept.ofExcept (groupLines (body.map ρ.sourceLine)) >>= Parse.statements)
      rw [ρ.groupLines_eq]
      cases hgroups : groupLines body with
      | error fault => exact .throw fault
      | ok groups =>
          have hle : Group.sizes groups ≤ lines.length :=
            length_groupLines hgroups ▸ Parse.length_branchBody hbody
          exact statements_eq groups
termination_by (lines.length, 2)
decreasing_by
  rcases Nat.lt_or_eq_of_le hle with h | h
  · exact Prod.Lex.left _ _ h
  · rw [h]; exact Prod.Lex.right _ (by decide)

theorem branch_eq (line : Nat) (args : List Token) (lines : List NestedLine) :
    ρ.Reads ρ.expr (Parse.branch line args lines)
      (Parse.branch (ρ.line line) (args.map ρ.token) (lines.map ρ.nestedLine)) := by
  cases hsplit : Parse.splitElse lines with
  | none =>
      have hsplit' : Parse.splitElse (lines.map ρ.nestedLine) = none := by
        rw [ρ.splitElse_eq, hsplit]
        rfl
      rw [Parse.branch_of_none hsplit, Parse.branch_of_none hsplit']
      exact .bind (.ofExcept (ρ.controlling_eq .ifTrue line args)) fun _ =>
        .bind (block_eq lines) fun _ => .pure _
  | some parts =>
      obtain ⟨first, divider, second⟩ := parts
      have hsplit' : Parse.splitElse (lines.map ρ.nestedLine) =
          some (first.map ρ.nestedLine, ρ.nestedLine divider, second.map ρ.nestedLine) := by
        rw [ρ.splitElse_eq, hsplit]
        rfl
      rw [Parse.branch_of_some hsplit, Parse.branch_of_some hsplit']
      refine .bind (.ofExcept (ρ.controlling_eq .ifTrue line args)) fun _ =>
        .bind (block_eq first) fun _ => ?_
      have htail : (ρ.nestedLine divider).tokens.tail = divider.tokens.tail.map ρ.token :=
        List.map_tail.symm
      rw [htail]
      match divider.tokens.tail with
      | [] => exact .bind (block_eq second) fun _ => .pure _
      | .keyword .ifTrue :: more =>
          exact .bind (branch_eq divider.number more second) fun _ => .pure _
      | .keyword .print :: _ => exact .throw _
      | .keyword .forEach :: _ => exact .throw _
      | .keyword .whileTrue :: _ => exact .throw _
      | .keyword .orElse :: _ => exact .throw _
      | .keyword .endBlock :: _ => exact .throw _
      | .literal _ :: _ => exact .throw _
      | .operator _ :: _ => exact .throw _
      | .word _ :: _ => exact .throw _
termination_by (lines.length, 3)
decreasing_by
  · exact Prod.Lex.right _ (by decide)
  · exact Prod.Lex.left _ _ (Parse.length_lt_of_splitElse hsplit).1
  · exact Prod.Lex.left _ _ (Parse.length_lt_of_splitElse hsplit).2
  · exact Prod.Lex.left _ _ (Parse.length_lt_of_splitElse hsplit).2

end

theorem program_eq (lines : List SourceLine) :
    ρ.Reads ρ.exprs (Parse.program lines) (Parse.program (lines.map ρ.sourceLine)) := by
  unfold Parse.program
  exact .bind (.ofExcept (ρ.groupLines_eq lines)) ρ.statements_eq

/-- **Reading renamed lines** gives the renamed program, or the renamed fault. -/
theorem parse_eq (lines : List SourceLine) :
    parse (lines.map ρ.sourceLine) = (parse lines).bimap ρ.parseFault ρ.exprs := by
  have hprogram : Parse.program (lines.map ρ.sourceLine) [] =
      (Parse.program lines []).trimap ρ.parseFault (List.map ρ.name) ρ.exprs := ρ.program_eq lines []
  unfold parse EStateM.run
  rw [hprogram]
  cases Parse.program lines [] <;> rfl

end Renaming

end LineScript
