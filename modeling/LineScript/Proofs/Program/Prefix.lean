import LineScript.Proofs.Program.Recognition
import LineScript.Run
import Mathlib

/-!
# LineScript.Proofs.Program.Prefix

Programs in two parts.  Lines that are read on their own are also read when more
lines follow, and all that reading the others needs to know of them is which
names they assign.  A check goes through the statements one by one, so it does
not matter to it how they are put together.

* `Parse.program_resumes`, `parse_append` — reading further lines after a program;
* `Derives.line_mem` — a statement has the number of one of its lines;
* `Expr.checkAll_eq_ok_iff` — a program is accepted if its statements are.
-/

namespace LineScript

open Parse

/-! ## reading -/

theorem Parse.statements_append (xs ys : List Group) :
    statements (xs ++ ys) = (do
      let p ← statements xs
      let q ← statements ys
      return p ++ q) := by
  induction xs with
  | nil =>
      rw [List.nil_append, statements]
      simp
  | cons g xs ih =>
      rw [List.cons_append, statements, ih]
      conv => rhs; rw [statements]
      simp

/-- The names after reading are those of the program. -/
theorem parse_eq_ok_iff {lines : List SourceLine} {p : Program} :
    parse lines = .ok p ↔ Parse.program lines [] = .ok p p.assigned.reverse := by
  constructor
  · intro h
    obtain ⟨names, hread⟩ := exists_program_of_parse h
    obtain ⟨-, hnames, -⟩ := (program_eq_ok_iff List.nodup_nil).mp hread
    rw [hread, hnames, List.append_nil]
  · exact parse_of_program_ok

theorem parse_nil : parse [] = .ok [] := by
  rw [parse_eq_ok_iff, program_eq_ok_iff_groups]
  exact ⟨[], rfl, by rw [statements]; rfl⟩

namespace Parse

variable {xs : List SourceLine} {p : Program} {names between : List String}

/-- All lines are grouped before any is read, so further lines that are not grouped stop
everything, and no name is assigned. -/
theorem program_append_of_error (h : program xs names = .ok p between) {ys : List SourceLine}
    {fault : Fault ParseCause} (hys : groupLines ys = .error fault) :
    program (xs ++ ys) names = .error fault names := by
  obtain ⟨groups, hgroups, -⟩ := program_eq_ok_iff_groups.mp h
  have happend := groupLines_append hgroups ys
  rw [hys] at happend
  exact program_of_groupLines_error happend

/-- Further lines that are grouped are read with the names assigned so far. -/
theorem program_append_of_ok (h : program xs names = .ok p between) {ys : List SourceLine}
    {more : List Group} (hys : groupLines ys = .ok more) :
    program (xs ++ ys) names = (do
      let q ← program ys
      return p ++ q) between := by
  obtain ⟨groups, hgroups, hstatements⟩ := program_eq_ok_iff_groups.mp h
  have happend := groupLines_append hgroups ys
  rw [hys] at happend
  rw [program_of_groupLines happend, program_of_groupLines hys, statements_append,
    EStateM.bind_of_ok hstatements]

/-- **Reading goes on where it stopped**: after lines that are read, further lines are read
as by a reader that starts with the names assigned so far, and they fail as they do there. -/
theorem program_resumes (h : program xs names = .ok p between) (ys : List SourceLine) :
    (∀ q after, program ys between = .ok q after → program (xs ++ ys) names = .ok (p ++ q) after) ∧
      ∀ fault after, program ys between = .error fault after →
        ∃ left, program (xs ++ ys) names = .error fault left := by
  cases hys : groupLines ys with
  | error fault =>
      rw [program_of_groupLines_error hys]
      constructor
      · intro q after hread
        contradiction
      · intro fault' after hread
        cases hread
        exact ⟨names, program_append_of_error h hys⟩
  | ok more =>
      rw [program_append_of_ok h hys]
      constructor
      · intro q after hread
        exact EStateM.bind_of_ok hread
      · intro fault after hread
        exact ⟨after, EStateM.bind_of_error hread⟩

/-- A name that a block assigned is not assigned again after it, but it may be printed. -/
theorem program_resumes_block :
    let one : List Token := [.literal (.int 1)]
    let xs : List SourceLine := [⟨1, [.keyword .ifTrue, .literal (.bool true)]⟩,
      ⟨2, .word "x" :: .operator .assign :: one⟩, ⟨3, [.keyword .endBlock]⟩]
    let p : Program :=
      [.branch 1 (.literal 1 (.bool true)) [.assign 2 "x" (.literal 2 (.int 1))] none]
    Parse.program xs ["w"] = .ok p ["x", "w"] ∧
      Parse.program (xs ++ [⟨4, [.keyword .print, .word "x"]⟩]) ["w"] =
        .ok (p ++ [.print 4 (.var 4 "x")]) ["x", "w"] ∧
      ∃ left, Parse.program (xs ++ [⟨4, .word "y" :: .operator .assign :: one⟩,
        ⟨5, .word "x" :: .operator .assign :: one⟩]) ["w"] =
          .error ⟨.doubleAssignment "x", 5⟩ left := by
  intro one xs p
  have hread : Parse.program xs ["w"] = .ok p ["x", "w"] := by cbv
  refine ⟨hread, (program_resumes hread _).1 _ _ (by cbv), ?_⟩
  exact (program_resumes hread _).2 _ ["y", "x", "w"] (by cbv)

end Parse

/-- After lines that are read, further lines are read with the names assigned so far. -/
theorem parse_append {xs : List SourceLine} {p : Program} (h : parse xs = .ok p)
    (ys : List SourceLine) :
    parse (xs ++ ys) =
      match Parse.program ys p.assigned.reverse with
      | .ok q _ => .ok (p ++ q)
      | .error fault _ => .error fault := by
  have hread := parse_eq_ok_iff.mp h
  cases hys : groupLines ys with
  | error fault =>
      rw [program_of_groupLines_error hys]
      exact parse_of_program_error (program_append_of_error hread hys)
  | ok more =>
      have hall := program_append_of_ok hread hys
      cases hmore : Parse.program ys p.assigned.reverse with
      | ok q names =>
          rw [EStateM.bind_of_ok hmore] at hall
          exact parse_of_program_ok hall
      | error fault names =>
          rw [EStateM.bind_of_error hmore] at hall
          exact parse_of_program_error hall

theorem exists_program_of_parse_append {xs ys : List SourceLine} {p q : Program}
    (h : parse xs = .ok p) (h' : parse (xs ++ ys) = .ok q) :
    ∃ rest after, Parse.program ys p.assigned.reverse = .ok rest after ∧ q = p ++ rest := by
  rw [parse_append h] at h'
  cases hread : Parse.program ys p.assigned.reverse with
  | ok rest after =>
      rw [hread] at h'
      exact ⟨rest, after, rfl, (Except.ok.inj h').symm⟩
  | error fault after =>
      rw [hread] at h'
      contradiction

/-- One group is read as one statement. -/
theorem Parse.program_single {lines : List SourceLine} {g : Group} {names after : List String}
    {p : Program} (hg : groupLines lines = .ok [g]) (h : Parse.program lines names = .ok p after) :
    ∃ e, p = [e] := by
  obtain ⟨groups, hgroups, h⟩ := program_eq_ok_iff_groups.mp h
  obtain rfl : [g] = groups := Except.ok.inj (hg.symm.trans hgroups)
  obtain ⟨e, es, between, he, hes, rfl⟩ := statements_cons_eq_ok_iff.mp h
  rw [statements] at hes
  obtain ⟨rfl, rfl⟩ := EStateM.pure_eq_ok_iff.mp hes
  exact ⟨e, rfl⟩

/-! ## line numbers -/

theorem Expr.line_of_ofTokens {line : Nat} {tokens : List Token} {e : Expr}
    (h : Expr.ofTokens line tokens = .ok e) : e.line = line :=
  Expr.onLine_of_read h e e.self_mem_nodes

/-- A statement has the number of its first line. -/
theorem Derives.head?_number {lines : List SourceLine} {e : Expr}
    (h : Derives lines (.statement e)) : lines.head?.map SourceLine.number = some e.line := by
  cases h with
  | operation hassign h =>
      rw [Expr.line_of_ofTokens h]
      rfl
  | _ => rfl

theorem Derives.statement_of_singleton {lines : List SourceLine} {e : Expr}
    (h : Derives lines (.block [e])) : Derives lines (.statement e) := by
  cases h with
  | cons hfirst hrest =>
      cases hrest with
      | nil => rwa [List.append_nil]

/-- Every statement of a program has the number of one of its lines. -/
theorem Derives.line_mem {lines : List SourceLine} {p : List Expr}
    (h : Derives lines (.block p)) : ∀ e ∈ p, ∃ l ∈ lines, l.number = e.line := by
  induction p generalizing lines with
  | nil => simp
  | cons e p ih =>
      cases h with
      | @cons first rest _ _ hfirst hrest =>
          intro e' he'
          rcases List.mem_cons.mp he' with rfl | he'
          · obtain ⟨l, hl, hnumber⟩ := Option.map_eq_some_iff.mp hfirst.head?_number
            exact ⟨l, List.mem_append_left rest (List.mem_of_head? hl), hnumber⟩
          · obtain ⟨l, hl, hnumber⟩ := ih hrest e' he'
            exact ⟨l, List.mem_append_right first hl, hnumber⟩

/-! ## checking -/

namespace Expr

theorem checkAll_append (xs ys : List Expr) :
    checkAll (xs ++ ys) = (do checkAll xs; checkAll ys) := by
  induction xs with
  | nil => rfl
  | cons e xs ih =>
      rw [List.cons_append, checkAll, ih, checkAll, bind_assoc]

theorem checkAll_eq_ok_iff {es : List Expr} :
    checkAll es = .ok () ↔ ∀ e ∈ es, check e = .ok () := by
  induction es with
  | nil => simp [checkAll]
  | cons e es ih =>
      rw [checkAll, Except.bind_eq_ok_iff, List.forall_mem_cons]
      constructor
      · rintro ⟨_, he, hes⟩
        exact ⟨he, ih.mp hes⟩
      · rintro ⟨he, hes⟩
        exact ⟨(), he, ih.mpr hes⟩

end Expr

namespace Options

variable {options : Options} {p : Program}

theorem validate_eq_ok_iff :
    options.validate p = .ok () ↔ (options.check = true → ∀ e ∈ p, e.check = .ok ()) := by
  rw [validate]
  cases options.check with
  | true => simp [Except.mapError_eq_ok_iff, Program.check, Expr.checkAll_eq_ok_iff]
  | false => simp

theorem exists_of_validate_eq_error {error : Error} (h : options.validate p = .error error) :
    options.check = true ∧ ∃ fault, p.check = .error fault ∧ error = .check fault := by
  unfold validate at h
  split at h
  · next hcheck =>
    cases hp : p.check with
    | ok u =>
        rw [hp] at h
        cases h
    | error fault =>
        rw [hp] at h
        cases h
        exact ⟨hcheck, fault, rfl, rfl⟩
  · contradiction

theorem check_of_validate (h : options.validate p = .ok ()) :
    (if options.check then p.check else .ok ()) = .ok () := by
  unfold validate at h
  split at h
  · next hcheck =>
    rw [if_pos hcheck]
    exact Except.mapError_eq_ok_iff.mp h
  · next hcheck => rw [if_neg hcheck]

/-- After statements that are accepted, only the others decide. -/
theorem validate_append (h : options.validate p = .ok ()) (q : Program) :
    options.validate (p ++ q) = options.validate q := by
  unfold validate at h ⊢
  cases hcheck : options.check with
  | true =>
      have hp : Expr.checkAll p = .ok () := by
        rw [hcheck, if_pos rfl] at h
        exact Except.mapError_eq_ok_iff.mp h
      rw [if_pos rfl, if_pos rfl, Program.check, Expr.checkAll_append, hp]
      rfl
  | false => rfl

theorem validate_filter (h : options.validate p = .ok ()) (f : Expr → Bool) :
    options.validate (p.filter f) = .ok () := by
  rw [validate_eq_ok_iff] at h ⊢
  intro hcheck e he
  exact h hcheck e (List.mem_of_mem_filter he)

end Options

end LineScript
