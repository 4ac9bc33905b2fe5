import LineScript.Proofs.Eval.Steps
import LineScript.Proofs.Program.Prefix
import LineScript.Proofs.Program.WriteOnce
import LineScript.Proofs.Typing.Violation

/-!
# LineScript.Proofs.Program.Location

The lines that faults are on.  Every node of a program that is read has the number of
one of the lines it was read from, and every fault of a later stage has the number of
a node.  So whichever stage stops a program, the fault is on one of its lines.

* `Derives.onLines` — the nodes of a program are on its lines;
* `Parse.line_mem_of_program` — a fault in reading is on one of the lines;
* `Derives.line_mem_of_check`, `Derives.line_mem_of_raisedIn` — so is a fault of the
  check and one of a run.
-/

namespace LineScript

/-! ## the nodes of what is read -/

/-- The nodes of a phrase. -/
def Phrase.nodes : Phrase → List Expr
  | statement e => e.nodes
  | block p => Expr.nodesAll p
  | tail otherwise => Expr.nodesAll (otherwise.getD [])

/-- The range of a loop is on the line of its header. -/
theorem Parse.LoopHeader.onLine {header range : Expr} {name : Option String} {line : Nat}
    (h : LoopHeader header name range) (hline : header.OnLine line) : range.OnLine line := by
  cases h with
  | bare => exact hline
  | named => exact (Expr.onLine_binary.mp hline).2.2

/-- All nodes have one of the given numbers. -/
def OnLines (numbers : List Nat) (nodes : List Expr) : Prop := ∀ node ∈ nodes, node.line ∈ numbers

namespace OnLines

variable {numbers more : List Nat} {xs ys : List Expr} {e : Expr}

theorem cons (he : e.line ∈ numbers) (hs : OnLines numbers xs) : OnLines numbers (e :: xs) :=
  List.forall_mem_cons.mpr ⟨he, hs⟩

theorem append (hx : OnLines numbers xs) (hy : OnLines numbers ys) : OnLines numbers (xs ++ ys) :=
  List.forall_mem_append.mpr ⟨hx, hy⟩

theorem mono (h : OnLines numbers xs) (hsub : numbers ⊆ more) : OnLines more xs :=
  fun node hnode => hsub (h node hnode)

/-- An operand is on the line that its tokens stand on. -/
theorem operand {line : Nat} (h : e.OnLine line) (rest : List Nat) :
    OnLines (line :: rest) e.nodes := by
  intro node hnode
  rw [h node hnode]
  exact List.mem_cons_self

/-- The numbers of some lines are among those of all. -/
theorem of_part {part whole : List SourceLine} (h : OnLines (part.map SourceLine.number) xs)
    (hinside : part <:+: whole) : OnLines (whole.map SourceLine.number) xs :=
  h.mono (hinside.map _).subset

/-- A branch is on its first line, the lines of its body and those that follow. -/
theorem branch (first : SourceLine) {body tail : List SourceLine} {condition : Expr}
    {p : List Expr} {otherwise : Option (List Expr)} (h : condition.OnLine first.number)
    (hbody : OnLines (body.map SourceLine.number) (Expr.nodesAll p))
    (htail : OnLines (tail.map SourceLine.number) (Expr.nodesAll (otherwise.getD []))) :
    OnLines ((first :: (body ++ tail)).map SourceLine.number)
      (Expr.branch first.number condition p otherwise).nodes := by
  have hcondition := operand h ((body ++ tail).map SourceLine.number)
  have hbodyInside : body <:+: first :: (body ++ tail) := ⟨[first], tail, rfl⟩
  have htailInside : tail <:+: first :: (body ++ tail) := ⟨first :: body, [], by simp⟩
  rw [Expr.nodes_branch]
  exact cons List.mem_cons_self
    ((hcondition.append (hbody.of_part hbodyInside)).append (htail.of_part htailInside))

end OnLines

/-- **The nodes of a program are on its lines.** -/
theorem Derives.onLines {lines : List SourceLine} {phrase : Phrase} (h : Derives lines phrase) :
    OnLines (lines.map SourceLine.number) phrase.nodes := by
  induction h with
  | print h =>
      rw [Phrase.nodes, Expr.nodes]
      exact .cons List.mem_cons_self (.operand (Expr.onLine_of_read h) _)
  | assign h =>
      rw [Phrase.nodes, Expr.nodes]
      exact .cons List.mem_cons_self (.operand (Expr.onLine_of_read h) _)
  | operation _ h => exact .operand (Expr.onLine_of_read h) _
  | @branch line args _ _ _ _ _ h _ _ ihbody ihtail =>
      exact .branch ⟨line, .keyword .ifTrue :: args⟩ (Expr.onLine_of_read h) ihbody ihtail
  | @loop line last args _ _ _ _ _ h hheader _ ihbody =>
      have hrange := hheader.onLine (Expr.onLine_of_read h)
      have hbody := ihbody.of_part
        ⟨[⟨line, .keyword .forEach :: args⟩], [⟨last, [.keyword .endBlock]⟩], rfl⟩
      rw [Phrase.nodes, Expr.nodes]
      exact .cons List.mem_cons_self ((OnLines.operand hrange _).append hbody)
  | nil => exact fun _ h => nomatch h
  | @cons first rest _ _ _ _ ihfirst ihrest =>
      have hfirst := ihfirst.of_part (List.prefix_append first rest).isInfix
      have hrest := ihrest.of_part (List.suffix_append first rest).isInfix
      exact hfirst.append hrest
  | close => exact fun _ h => nomatch h
  | otherwise line last _ ihbody =>
      exact ihbody.of_part ⟨[⟨line, [.keyword .orElse]⟩], [⟨last, [.keyword .endBlock]⟩], rfl⟩
  | @chained line args _ _ _ _ _ h _ _ ihbody ihtail =>
      have hbranch := OnLines.branch ⟨line, .keyword .orElse :: .keyword .ifTrue :: args⟩
        (Expr.onLine_of_read h) ihbody ihtail
      rw [Phrase.nodes, Option.getD_some, Expr.nodesAll, Expr.nodesAll, List.append_nil]
      exact hbranch

theorem derives_of_parse {lines : List SourceLine} {p : Program} (h : parse lines = .ok p) :
    Derives lines (.block p) :=
  ((program_eq_ok_iff List.nodup_nil).mp (parse_eq_ok_iff.mp h)).1

/-! ## faults -/

variable {lines : List SourceLine} {p : Program}

/-- A fault in reading is on one of the lines. -/
theorem Parse.line_mem_of_program {names after : List String} {fault : Fault ParseCause}
    (h : program lines names = .error fault after) : fault.line ∈ lines.map SourceLine.number := by
  obtain ⟨before, line, rest, rfl, hnumber, -⟩ := (WritesOnce.program lines).blames names fault after h
  rw [← hnumber]
  exact List.mem_map_of_mem (by simp)

theorem line_mem_of_parse {fault : Fault ParseCause} (h : parse lines = .error fault) :
    fault.line ∈ lines.map SourceLine.number := by
  cases hread : Parse.program lines [] with
  | ok p names =>
      rw [parse_of_program_ok hread] at h
      contradiction
  | error fault' names =>
      rw [parse_of_program_error hread] at h
      cases h
      exact Parse.line_mem_of_program hread

/-- A program that the check refuses holds a node on the line of the fault. -/
theorem Program.exists_of_check_error {fault : Fault CheckCause} (h : p.check = .error fault) :
    ∃ node ∈ Expr.nodesAll p, node.line = fault.line := by
  rw [check, Expr.checkAll_eq_forM] at h
  obtain ⟨node, hnode, h⟩ := Except.exists_of_forM_eq_error h
  exact ⟨node, hnode, (Expr.checkNode_eq_error_iff.mp h).2.symm⟩

/-- A node raises its faults on its own line or on that of an operand. -/
theorem Raises.exists_line {scope : Scope} {node : Expr} {fault : Fault EvalCause}
    (h : Raises scope node fault) : ∃ e ∈ node.nodes, e.line = fault.line := by
  cases h with
  | @misplaced _ operand hmem =>
      have hsub := Expr.nodes_subset_of_mem_operands hmem
      exact ⟨operand, hsub operand.self_mem_nodes, rfl⟩
  | _ => exact ⟨_, Expr.self_mem_nodes _, rfl⟩

theorem RaisedIn.exists_line {fault : Fault EvalCause} (h : RaisedIn (Expr.nodesAll p) fault) :
    ∃ node ∈ Expr.nodesAll p, node.line = fault.line := by
  obtain ⟨node, hnode, scope, hraises⟩ := h
  obtain ⟨e, he, hline⟩ := hraises.exists_line
  exact ⟨e, Expr.nodes_subset_of_mem_nodesAll hnode he, hline⟩

/-- A statement that fails was stopped by one of its nodes. -/
theorem Expr.raisedIn_of_outcome {e : Expr} {history : History} {fault : Fault EvalCause}
    {texts : List String} (h : e.outcome history = ⟨.error fault, texts⟩) :
    RaisedIn e.nodes fault := by
  unfold outcome at h
  split at h
  · cases h
  · next hrun =>
    cases h
    exact Eval.failsWith_statement history e _ _ _ hrun

namespace Derives

/-- What is found at a node of a program is on one of its lines. -/
theorem line_mem_of_exists (h : Derives lines (.block p)) {number : Nat}
    (hnode : ∃ node ∈ Expr.nodesAll p, node.line = number) :
    number ∈ lines.map SourceLine.number := by
  obtain ⟨node, hmem, rfl⟩ := hnode
  exact h.onLines node hmem

/-- A fault of the check is on one of the lines. -/
theorem line_mem_of_check (h : Derives lines (.block p)) {fault : Fault CheckCause}
    (hcheck : p.check = .error fault) : fault.line ∈ lines.map SourceLine.number :=
  h.line_mem_of_exists (Program.exists_of_check_error hcheck)

/-- A fault of a run is on one of the lines. -/
theorem line_mem_of_raisedIn (h : Derives lines (.block p)) {fault : Fault EvalCause}
    (hraised : RaisedIn (Expr.nodesAll p) fault) : fault.line ∈ lines.map SourceLine.number :=
  h.line_mem_of_exists hraised.exists_line

end Derives

end LineScript
