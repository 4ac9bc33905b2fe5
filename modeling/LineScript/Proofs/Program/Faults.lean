import LineScript.Program.Parser
import LineScript.Proofs.Stateful

/-!
# LineScript.Proofs.Program.Faults

The line a fault is on.  The parts of a line and of a block are read without a look
at the names assigned so far.  When one of them cannot be read, the fault is on its
line, or on one of its lines, and it is never about a name that is assigned twice.

* `FailsOn.ofTokens`, `FailsOn.loopHeader` — operands and the headers of blocks;
* `FailsOn.groupLines`, `FailsOn.branchBody` — the lines of a program and a branch.
-/

namespace LineScript

/-- A fault of a part that assigns nothing, on one of the given lines. -/
def Plain (numbers : List Nat) (fault : Fault ParseCause) : Prop :=
  fault.line ∈ numbers ∧ ∀ name, fault.cause ≠ .doubleAssignment name

/-- A part that is read without assigning anything fails on the given lines only. -/
def FailsOn {α : Type} (numbers : List Nat) (x : Except (Fault ParseCause) α) : Prop :=
  ∀ fault, x = .error fault → Plain numbers fault

namespace FailsOn

variable {α β : Type} {numbers : List Nat} {line : Nat}

theorem ok (a : α) : FailsOn numbers (.ok a) := by
  intro fault h
  contradiction

theorem error {cause : ParseCause} (hline : line ∈ numbers)
    (hcause : ∀ name, cause ≠ .doubleAssignment name) :
    FailsOn numbers (.error ⟨cause, line⟩ : Except (Fault ParseCause) α) := by
  intro fault h
  cases h
  exact ⟨hline, hcause⟩

theorem mono {more : List Nat} {x : Except (Fault ParseCause) α} (h : FailsOn numbers x)
    (hsub : numbers ⊆ more) : FailsOn more x :=
  fun fault hx => ⟨hsub (h fault hx).1, (h fault hx).2⟩

theorem bind {x : Except (Fault ParseCause) α} {f : α → Except (Fault ParseCause) β}
    (hx : FailsOn numbers x) (hf : ∀ a, x = .ok a → FailsOn numbers (f a)) :
    FailsOn numbers (x >>= f) := by
  intro fault h
  rcases Except.bind_eq_error_iff.mp h with h | ⟨a, ha, h⟩
  · exact hx fault h
  · exact hf a ha fault h

/-! ## the parts of a line -/

theorem ofToken (token : Token) : FailsOn [line] (Expr.ofToken line token) := by
  cases token with
  | literal value => exact ok _
  | word name => exact ok _
  | operator op => exact error (by simp) (by simp)
  | keyword k => exact error (by simp) (by simp)

theorem ofTokens (tokens : List Token) : FailsOn [line] (Expr.ofTokens line tokens) := by
  fun_induction Expr.ofTokens line tokens with
  | case1 token => exact ofToken token
  | case2 => exact error (by simp) (by simp)
  | case3 rest _ _ ih => exact bind ih fun _ _ => ok _
  | case4 => exact error (by simp) (by simp)
  | case5 => exact error (by simp) (by simp)
  | case6 tokens _ s _ _ _ _ _ ihleft ihright =>
      refine bind ihleft fun left _ => ?_
      split
      · exact error (by simp) (by simp)
      · exact bind ihright fun _ _ => ok _

theorem printed (args : List Token) : FailsOn [line] (Parse.printed line args) := by
  unfold Parse.printed
  split
  · exact ofTokens args
  · split
    · exact error (by simp) (by simp)
    · exact ok _
    · exact ok _
    · exact error (by simp) (by simp)

theorem controlling (k : Keyword) (args : List Token) :
    FailsOn [line] (Parse.controlling k line args) := by
  unfold Parse.controlling
  split
  · exact error (by simp) (by simp)
  · exact ofTokens args

theorem loopHeader (args : List Token) : FailsOn [line] (Parse.loopHeader line args) := by
  refine bind (controlling .forEach args) fun header _ => ?_
  split
  · split
    · exact ok _
    · exact error (by simp) (by simp)
  · split
    · exact ok _
    · exact error (by simp) (by simp)

/-! ## the parts of a block -/

theorem checkClosing (line : NestedLine) : FailsOn [line.number] (Parse.checkClosing line) := by
  unfold Parse.checkClosing
  split
  · exact ok _
  all_goals exact error (by simp) (by simp)

theorem branchBody (lines : List NestedLine) :
    FailsOn (lines.map (·.number)) (Parse.branchBody lines) := by
  unfold Parse.branchBody
  split
  · next closing hfind =>
    have hmem : closing.number ∈ lines.map (·.number) :=
      List.mem_map_of_mem (List.mem_of_find?_eq_some hfind)
    exact bind ((checkClosing closing).mono (by simpa using hmem)) fun _ _ => ok _
  · exact bind (ok ()) fun _ _ => ok _

theorem place (depth : Nat) (line : SourceLine) :
    FailsOn [line.number] (LineScript.place depth line) := by
  unfold LineScript.place
  split
  · exact error (by simp) (by simp)
  · split
    · split
      · exact error (by simp) (by simp)
      · exact ok _
    · split
      · exact error (by simp) (by simp)
      · exact ok _
    · exact ok _
    · exact ok _

/-- A block that is never closed is reported on its first line, which is met before. -/
theorem groupFrom {depth opener : Nat} {lines : List SourceLine}
    (hopener : depth ≠ 0 → opener ∈ numbers) (hlines : lines.map (·.number) ⊆ numbers) :
    FailsOn numbers (LineScript.groupFrom depth opener lines) := by
  induction lines generalizing depth opener with
  | nil =>
      unfold LineScript.groupFrom
      split
      · exact ok _
      · next hdepth => exact error (hopener hdepth) (by simp)
  | cons line lines ih =>
      rw [List.map_cons, List.cons_subset] at hlines
      obtain ⟨hline, hlines⟩ := hlines
      unfold LineScript.groupFrom
      refine bind ((place depth line).mono (by simpa using hline)) fun placed _ => ?_
      refine bind (ih ?_ hlines) fun _ _ => ok _
      intro _
      split
      · exact hline
      · next hdepth => exact hopener hdepth

theorem groupLines (lines : List SourceLine) :
    FailsOn (lines.map (·.number)) (LineScript.groupLines lines) := by
  intro fault h
  have hfrom : FailsOn (lines.map (·.number)) (LineScript.groupFrom 0 0 lines) :=
    groupFrom (by simp) (List.Subset.refl _)
  unfold LineScript.groupLines at h
  cases hg : LineScript.groupFrom 0 0 lines with
  | ok groups => simp [hg, Except.map] at h
  | error fault' =>
      simp only [hg, Except.map, Except.error.injEq] at h
      exact hfrom fault (by rw [hg, h])

end FailsOn

end LineScript
