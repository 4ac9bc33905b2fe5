import LineScript.Proofs.Eval.Refusal
import LineScript.Proofs.Program.Prefix
import Mathlib

/-!
# LineScript.Proofs.Eval.Constancy

Variables are constant.  Nothing in a run forbids a second record of a name, which would
hide the first.  But a top-level statement leaves a record of the name it assigns, or of
none, and a program that was read assigns no name twice, at top level or in a block.  So
the records of a run are about different names, none of which a block assigns, and a name
that has a value keeps it.

* `leaves_of_executes` — the record of a statement;
* `exists_names_evaluate` — the names of a run are those of the statements that have run;
* `variables_constant` — what this says about a program that was read.
-/

namespace LineScript

/-! ## the names of a history -/

/-- The name that a record gives a value, if it gives one. -/
def Record.name? (record : Record) : Option String := record.binding?.map Binding.name

namespace History

/-- The names that records give values, in order. -/
def names (history : History) : List String := history.filterMap Record.name?

theorem names_append (h more : History) : names (h ++ more) = names h ++ names more :=
  List.filterMap_append

theorem value?_append_of_notMem {h more : History} {name : String} (hname : name ∉ more.names) :
    History.value? (h ++ more) name = h.value? name := by
  induction more using List.reverseRecOn with
  | nil => rw [List.append_nil]
  | append_singleton more record ih =>
      rw [names_append, List.mem_append, not_or] at hname
      rw [← List.append_assoc, value?_append_singleton, ih hname.1]
      cases hb : record.binding? with
      | none => rfl
      | some b =>
          have hne : b.name ≠ name := by
            rintro rfl
            exact hname.2 (by simp [names, Record.name?, hb])
          exact if_neg hne

/-- A name without a record has no value. -/
theorem value?_eq_none_of_notMem {h : History} {name : String} (hname : name ∉ h.names) :
    h.value? name = none := value?_append_of_notMem (h := []) hname

/-- If no name has two records, later ones leave the value of a name alone. -/
theorem value?_append_of_nodup {h more : History} (hnodup : (names (h ++ more)).Nodup)
    {name : String} {value : Value} (hvalue : h.value? name = some value) :
    History.value? (h ++ more) name = some value := by
  have hmem : name ∈ h.names := by
    by_contra hname
    rw [value?_eq_none_of_notMem hname] at hvalue
    contradiction
  rw [names_append, List.nodup_append] at hnodup
  rw [value?_append_of_notMem, hvalue]
  exact fun hmore => hnodup.2.2 name hmem name hmore rfl

end History

theorem Scope.lookup_eq_ok_iff {scope : Scope} {line : Nat} {name : String} {value : Value} :
    scope.lookup line name = .ok value ↔ scope.value? name = some value := by
  unfold lookup
  split
  · next h => simp [h]
  · next h => simp [h]

/-! ## the record of a statement -/

/-- The records that a statement can leave. -/
inductive Leaves : Expr → Record → Prop where
  | operand {e : Expr} (he : e.kind?.isSome = true) (value : Value) :
      Leaves e (.value e.line value)
  | assign (line : Nat) (name : String) (e : Expr) (value : Value) :
      Leaves (.assign line name e) (.assign line name value)
  | print (line : Nat) (e : Expr) (value : Value) : Leaves (.print line e) (.print line value)
  | branch (line : Nat) (condition : Expr) (body : List Expr) (otherwise : Option (List Expr))
      (taken : Bool) : Leaves (.branch line condition body otherwise) (.branch line taken)
  | loop (line : Nat) (name : Option String) (range : Expr) (body : List Expr) (iterations : Nat) :
      Leaves (.loop line name range body) (.loop line iterations)

section

variable {σ : Type} [Sink σ]

theorem leaves_of_executes {env : Env} {e : Expr} {out after : σ} {record : Record}
    (h : Executes env e out (.ok record after)) : Leaves e record := by
  generalize hanswer : (.ok record after : Answer σ Record) = answer at h
  cases h with
  | operand he _ => cases hanswer; exact .operand he _
  | assign line name _ => cases hanswer; exact .assign line name _ _
  | print line _ _ => cases hanswer; exact .print line _ _
  | branch line _ _ =>
      obtain ⟨_, _, rfl⟩ := EStateM.Result.map_eq_ok.mp hanswer.symm
      exact .branch line _ _ _ _
  | loop line _ _ =>
      obtain ⟨_, _, rfl⟩ := EStateM.Result.map_eq_ok.mp hanswer.symm
      exact .loop line _ _ _ _
  | fault | refused | branchFault | loopFault => contradiction

/-- A statement leaves a record of the name that it assigns. -/
theorem Leaves.name?_eq {e : Expr} {record : Record} (h : Leaves e record) :
    record.name? = e.assigned? := by
  cases h with
  | @operand e he value =>
      cases e with
      | literal | var | not | binary => rfl
      | assign | print | branch | loop => contradiction
  | assign | print | branch | loop => rfl

/-- A run adds records of the names that are assigned at top level, up to the statement it
stops at. -/
theorem exists_names_evaluate (p : Program) (history : History) (out : σ) :
    ∃ records done, (Transcript.evaluate p ⟨history, out⟩).state.history = history ++ records ∧
      done <+: p ∧ History.names records = done.filterMap Expr.assigned? := by
  induction p generalizing history out with
  | nil => exact ⟨[], [], by simp [Transcript.evaluate, pure, EStateM.pure, EStateM.Result.state],
      List.prefix_refl [], rfl⟩
  | cons e p ih =>
      have hexecutes := executes_statement history e [] out
      have hstep := Transcript.step_eq_answer history e out
      generalize Eval.answer (Eval.statement history e) ⟨[], out⟩ = answer at hexecutes hstep
      rw [Transcript.evaluate]
      cases answer with
      | error fault after =>
          rw [EStateM.bind_of_error hstep]
          exact ⟨[], [], by simp [EStateM.Result.state], List.nil_prefix, rfl⟩
      | ok record between =>
          obtain ⟨records, done, hhistory, hdone, hnames⟩ := ih (history ++ [record]) between
          have hname := (leaves_of_executes hexecutes).name?_eq
          rw [EStateM.bind_of_ok hstep, hhistory]
          refine ⟨record :: records, e :: done, by simp, List.cons_prefix_cons.mpr ⟨rfl, hdone⟩, ?_⟩
          rw [History.names, List.filterMap_cons, List.filterMap_cons, hname, ← hnames]
          rfl

end

/-! ## what was read -/

namespace Program

variable {p : Program}

/-- A block at any depth of the program assigns the name. -/
def AssignsInBlock (p : Program) (name : String) : Prop :=
  ∃ e ∈ p, ∃ body ∈ e.blocks, name ∈ assigned body

theorem nodesAll_eq_flatMap (p : Program) : Expr.nodesAll p = p.flatMap Expr.nodes := by
  induction p with
  | nil => rfl
  | cons e p ih => rw [Expr.nodesAll, ih, List.flatMap_cons]

/-- The statements of a program are among its nodes, in order. -/
theorem sublist_nodesAll (p : Program) : List.Sublist p (Expr.nodesAll p) := by
  induction p with
  | nil => exact .slnil
  | cons e p ih =>
      rw [Expr.nodesAll, Expr.nodes_eq, List.cons_append]
      exact (ih.trans (List.sublist_append_right _ _)).cons_cons e

/-- Statements of a program that assigns no name twice do not do so either. -/
theorem nodup_names_of_part {done : Program} (h : p.assigned.Nodup) (hdone : done <+: p) :
    (done.filterMap Expr.assigned?).Nodup :=
  h.sublist ((hdone.sublist.trans (sublist_nodesAll p)).filterMap _)

/-- A program that assigns no name twice does not assign one in a block and at top level. -/
theorem AssignsInBlock.notMem (h : p.assigned.Nodup) {name : String}
    (hblock : p.AssignsInBlock name) : name ∉ p.filterMap Expr.assigned? := by
  obtain ⟨e, he, body, hbody, hname⟩ := hblock
  intro htop
  obtain ⟨e', he', hassigned⟩ := List.mem_filterMap.mp htop
  -- The assignment has no blocks, so it is another statement than the one with the block.
  have hne : e ≠ e' := by
    rintro rfl
    cases e with
    | assign => simp [Expr.blocks] at hbody
    | _ => contradiction
  rw [assigned, nodesAll_eq_flatMap, List.filterMap_flatMap, List.nodup_flatMap] at h
  have hsymm : Std.Symm (Function.onFun List.Disjoint fun e : Expr =>
      e.nodes.filterMap Expr.assigned?) := ⟨fun _ _ hdisjoint => hdisjoint.symm⟩
  have hdisjoint := h.2.forall he he' hne
  have hinside : name ∈ e.nodes.filterMap Expr.assigned? :=
    List.filterMap_subset _ (Expr.nodesAll_subset_of_mem_blocks hbody) hname
  exact hdisjoint hinside (List.mem_filterMap.mpr ⟨e', e'.self_mem_nodes, hassigned⟩)

end Program

theorem nodup_assigned_of_parse {lines : List SourceLine} {p : Program}
    (h : parse lines = .ok p) : p.assigned.Nodup := by
  obtain ⟨-, -, hnodup⟩ := (program_eq_ok_iff List.nodup_nil).mp (parse_eq_ok_iff.mp h)
  exact List.nodup_reverse.mp hnodup

/-! ## programs that were read -/

section

variable {σ τ : Type} [Sink σ] [Sink τ] {p q : Program}

/-- Every record of a run is about another name. -/
theorem nodup_names_evaluate (h : p.assigned.Nodup) (hq : q <+: p) (out : σ) :
    (History.names (Transcript.evaluate q ⟨[], out⟩).state.history).Nodup := by
  obtain ⟨records, done, hhistory, hdone, hnames⟩ := exists_names_evaluate q [] out
  rw [hhistory, List.nil_append, hnames]
  exact Program.nodup_names_of_part h (hdone.trans hq)

/-- A longer part of a program starts with the records of a shorter one. -/
theorem exists_append_of_evaluate {first : Transcript σ} {second : Transcript τ} {out : σ}
    {out' : τ} (hinitial : p <+: q) (hfirst : Transcript.evaluate p ⟨[], out⟩ = .ok () first)
    (hsecond : Transcript.evaluate q ⟨[], out'⟩ = .ok () second) :
    ∃ records, second.history = first.history ++ records := by
  obtain ⟨rest, rfl⟩ := hinitial
  rw [Transcript.evaluate_append] at hsecond
  obtain ⟨_, ⟨between, middle⟩, hstart, hrest⟩ := EStateM.bind_eq_ok_iff.mp hsecond
  obtain ⟨_, hlog⟩ := evaluate_log_of_ok hfirst
  obtain ⟨_, hlog'⟩ := evaluate_log_of_ok hstart
  rw [hlog] at hlog'
  obtain rfl : first.history = between := by
    cases hlog'
    rfl
  obtain ⟨records, -, hhistory, -⟩ := exists_names_evaluate rest first.history middle
  rw [hrest] at hhistory
  exact ⟨records, hhistory⟩

/-- **Variables are constant**: however a program that was read ends, it has left at most
one record of a name.  A name that has a value at top level after a part of the program
keeps it, and a name that a block assigns never gets one. -/
theorem variables_constant {lines : List SourceLine} (hread : parse lines = .ok p) :
    (∀ out : σ, (History.names (Transcript.evaluate p ⟨[], out⟩).state.history).Nodup) ∧
    (∀ p₁ p₂ : Program, p₁ <+: p₂ → p₂ <+: p →
      ∀ (out₁ : σ) (out₂ : τ) (t₁ : Transcript σ) (t₂ : Transcript τ),
      Transcript.evaluate p₁ ⟨[], out₁⟩ = .ok () t₁ →
      Transcript.evaluate p₂ ⟨[], out₂⟩ = .ok () t₂ →
      ∀ name line value, Scope.lookup ⟨t₁.history, []⟩ line name = .ok value →
        Scope.lookup ⟨t₂.history, []⟩ line name = .ok value) ∧
    ∀ name, p.AssignsInBlock name → ∀ q : Program, q <+: p → ∀ (out : σ) (line : Nat),
      Scope.lookup ⟨(Transcript.evaluate q ⟨[], out⟩).state.history, []⟩ line name =
        .error ⟨.unknownVariable name, line⟩ := by
  have hnodup := nodup_assigned_of_parse hread
  refine ⟨nodup_names_evaluate hnodup (List.prefix_refl p), ?_, ?_⟩
  · intro p₁ p₂ h₁ h₂ out₁ out₂ t₁ t₂ hrun₁ hrun₂ name line value hvalue
    obtain ⟨records, hrecords⟩ := exists_append_of_evaluate h₁ hrun₁ hrun₂
    have hnames := nodup_names_evaluate hnodup h₂ out₂
    rw [hrun₂, show EStateM.Result.state _ = t₂ from rfl, hrecords] at hnames
    rw [Scope.lookup_eq_ok_iff, Scope.value?_nil] at hvalue ⊢
    rw [hrecords]
    exact History.value?_append_of_nodup hnames hvalue
  · intro name hblock q hq out line
    obtain ⟨records, done, hhistory, hdone, hnames⟩ := exists_names_evaluate q [] out
    have hnone : History.value? records name = none := by
      apply History.value?_eq_none_of_notMem
      rw [hnames]
      exact fun hmem => hblock.notMem hnodup
        (List.filterMap_subset _ (hdone.trans hq).subset hmem)
    rw [hhistory, List.nil_append, Scope.lookup, Scope.value?_nil, hnone]

end

/-- The lines of a program that assigns a name in a block. -/
def blockLines : List SourceLine :=
  [⟨1, [.word "x", .operator .assign, .literal (.int 1)]⟩,
    ⟨2, [.keyword .ifTrue, .word "x", .operator (.binary .equal), .literal (.int 1)]⟩,
    ⟨3, [.word "y", .operator .assign, .word "x"]⟩, ⟨4, [.keyword .endBlock]⟩,
    ⟨5, [.word "z", .operator .assign, .word "x", .operator (.binary .add), .literal (.int 1)]⟩,
    ⟨6, [.keyword .print, .word "y"]⟩]

/-- The program of these lines. -/
def blockProgram : Program :=
  [.assign 1 "x" (.literal 1 (.int 1)),
    .branch 2 (.binary 2 .equal (.var 2 "x") (.literal 2 (.int 1)))
      [.assign 3 "y" (.var 3 "x")] none,
    .assign 5 "z" (.binary 5 .add (.var 5 "x") (.literal 5 (.int 1))),
    .print 6 (.var 6 "y")]

/-- The branch has run when the last line fails, but what it assigned is not there. -/
theorem variables_constant_block :
    Transcript.evaluate blockProgram ⟨[], ({} : Log)⟩ = .error ⟨.unknownVariable "y", 6⟩
      ⟨[.assign 1 "x" (.int 1), .branch 2 true, .assign 5 "z" (.int 2)], {}⟩ ∧
    (History.names (Transcript.evaluate blockProgram ⟨[], ({} : Log)⟩).state.history).Nodup ∧
    Scope.lookup ⟨[.assign 1 "x" (.int 1), .branch 2 true, .assign 5 "z" (.int 2)], []⟩ 7 "x" =
      .ok (.int 1) ∧
    Scope.lookup ⟨(Transcript.evaluate (blockProgram.take 2) ⟨[], ({} : Log)⟩).state.history, []⟩
      7 "y" = .error ⟨.unknownVariable "y", 7⟩ := by
  have hread : parse blockLines = .ok blockProgram := by cbv
  obtain ⟨hnodup, hkeeps, hblock⟩ := variables_constant (σ := Log) (τ := Log) hread
  have hfirst : Transcript.evaluate (blockProgram.take 1) ⟨[], ({} : Log)⟩ =
      .ok () ⟨[.assign 1 "x" (.int 1)], {}⟩ := by cbv
  have hsecond : Transcript.evaluate (blockProgram.take 3) ⟨[], ({} : Log)⟩ =
      .ok () ⟨[.assign 1 "x" (.int 1), .branch 2 true, .assign 5 "z" (.int 2)], {}⟩ := by cbv
  refine ⟨by cbv, hnodup {}, ?_, ?_⟩
  · exact hkeeps _ _ (List.take_prefix_take_left (by decide)) (List.take_prefix 3 _) {} {} _ _ hfirst
      hsecond "x" 7 (.int 1) rfl
  · refine hblock "y" ⟨_, List.mem_cons_of_mem _ List.mem_cons_self, _, List.mem_cons_self, ?_⟩ _
      (List.take_prefix 2 _) {} 7
    exact List.mem_cons_self

end LineScript
